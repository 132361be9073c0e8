import Polyphony.Notation.CommandValue
import Polyphony.Notation.PitchCache
import Polyphony.Notation.Scan

/-! # From tokens to events

A rest, note or chord takes the duration that follows it, or one beat. Pitches are
resolved through a cache that outlives the composition. What the cache has learned
and what has been warned about stays, even if the reading fails later on.
-/
namespace Polyphony.Notation

/-- What a reading leaves behind besides its events. -/
structure Desk where
  cache : PitchCache
  log : Log

def Desk.empty : Desk := ⟨.empty, []⟩

abbrev Reading := EStateM Error Desk

def resolve (col : Nat) (pitch : String) : Reading Float := fun desk =>
  match desk.cache.resolve pitch with
  | (.ok freq, cache) => .ok freq { desk with cache := cache }
  | (.error cause, cache) => .error ⟨cause, col⟩ { desk with cache := cache }

def decode (col : Nat) (key value : String) : Reading Command := fun desk =>
  match readCommand key value with
  | .ok (command, warnings) => .ok command { desk with log := desk.log ++ warnings }
  | .error cause => .error ⟨cause, col⟩ desk

/-- What a token stands for before its duration is known. -/
inductive Head where
  | command (command : Command)
  | sound (freqs : List Float)

def head (token : Token) : Reading Head :=
  match token.lexeme with
  | .rest => pure (.sound [])
  | .note pitch => do
    let freq ← resolve token.col pitch
    pure (.sound [freq])
  | .chord pitches => do
    let freqs ← pitches.mapM (resolve token.col)
    pure (.sound freqs)
  | .command key value => do
    let command ← decode token.col key value
    pure (.command command)
  | .duration _ _ => throw ⟨.orphanDuration, token.col⟩

/-- The length of a note whose next tokens are these, and the tokens behind it. -/
def takeLength (tokens : List Token) : Except Error (Beats × List Token) :=
  match tokens with
  | ⟨.duration num den, col⟩ :: rest =>
    match Beats.ofFraction? num den with
    | some duration => .ok (duration, rest)
    | none => .error ⟨.zeroDenominator, col⟩
  | _ => .ok (.one, tokens)

theorem takeLength_rest_le {tokens rest : List Token} {duration : Beats}
    (h : takeLength tokens = .ok (duration, rest)) : rest.length ≤ tokens.length := by
  unfold takeLength at h
  split at h
  · split at h
    · obtain ⟨_, rfl⟩ := Prod.mk.inj (Except.ok.inj h)
      simp
    · cases h
  · obtain ⟨_, rfl⟩ := Prod.mk.inj (Except.ok.inj h)
    exact Nat.le_refl _

/-- The events of the tokens that follow those that are done. -/
def eventsFrom (tokens : List Token) (done : Array Event) : Reading (List Event) :=
  match tokens with
  | [] => pure done.toList
  | token :: tokens => do
    match ← head token with
    | .command command => eventsFrom tokens (done.push (.command command))
    | .sound freqs =>
      match _h : takeLength tokens with
      | .ok (duration, rest) => eventsFrom rest (done.push (.note ⟨freqs, duration⟩))
      | .error e => throw e
termination_by tokens.length
decreasing_by
  · simp
  · have := takeLength_rest_le _h
    simp only [List.length_cons]
    omega

def events (source : String) : Reading (List Event) := fun desk =>
  match scan source with
  | .ok tokens => eventsFrom tokens #[] desk
  | .error e => .error e desk

end Polyphony.Notation
