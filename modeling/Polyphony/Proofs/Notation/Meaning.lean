import Polyphony.Proofs.Notation.Grammar
import Polyphony.Proofs.Notation.SharedCache

/-! # What a composition means

A token means the same to every reader, whatever the cache. A unit and the duration behind
it form a group, and the events of a composition are those of its groups, one by one.
-/
namespace Polyphony.Notation

def pitchAt (col : Nat) (pitch : String) : Except Error Float :=
  (frequency? pitch).mapError (⟨·, col⟩)

def commandAt (col : Nat) (key value : String) : Except Error Command :=
  ((readCommand key value).map Prod.fst).mapError (⟨·, col⟩)

/-- What a token stands for, by itself. -/
def Token.meaning (token : Token) : Except Error Head :=
  match token.lexeme with
  | .rest => .ok (.sound [])
  | .note pitch => do
    let freq ← pitchAt token.col pitch
    pure (.sound [freq])
  | .chord pitches => do
    let freqs ← pitches.mapM (pitchAt token.col)
    pure (.sound freqs)
  | .command key value => do
    let command ← commandAt token.col key value
    pure (.command command)
  | .duration _ _ => .error ⟨.orphanDuration, token.col⟩

def Head.isSound : Head → Bool
  | .sound _ => true
  | .command _ => false

theorem says_resolve (col : Nat) (pitch : String) : Says (resolve col pitch) (pitchAt col pitch) := by
  intro desk hdesk
  have hsound := hdesk.resolve_snd pitch
  rw [resolve, pitchAt, ← hdesk.resolve_fst pitch]
  revert hsound
  rcases desk.cache.resolve pitch with ⟨_ | _, cache⟩
  · exact fun hsound => ⟨rfl, hsound⟩
  · exact fun hsound => ⟨rfl, hsound⟩

theorem says_decode (col : Nat) (key value : String) :
    Says (decode col key value) (commandAt col key value) := by
  intro desk hdesk
  rw [decode, commandAt]
  rcases readCommand key value with _ | ⟨_, _⟩
  · exact ⟨rfl, hdesk⟩
  · exact ⟨rfl, hdesk⟩

theorem says_head (token : Token) : Says (head token) token.meaning := by
  unfold head Token.meaning
  cases token.lexeme with
  | rest => exact says_pure _
  | note pitch => exact (says_resolve token.col pitch).bind fun freq _ => says_pure _
  | chord pitches => exact (says_mapM (says_resolve token.col) pitches).bind fun freqs _ => says_pure _
  | command key value => exact (says_decode token.col key value).bind fun command _ => says_pure _
  | duration num den => exact says_throw _

/-- Only a unit that takes a duration sounds. -/
theorem Token.takesDuration_eq {token : Token} {head : Head} (h : token.meaning = .ok head) :
    token.lexeme.takesDuration = head.isSound := by
  rcases token with ⟨lexeme, col⟩
  cases lexeme with
  | rest =>
    cases h
    rfl
  | note pitch =>
    rcases bind_eq_ok.mp h with ⟨freq, -, hhead⟩
    cases hhead
    rfl
  | chord pitches =>
    rcases bind_eq_ok.mp h with ⟨freqs, -, hhead⟩
    cases hhead
    rfl
  | command key value =>
    rcases bind_eq_ok.mp h with ⟨command, -, hhead⟩
    cases hhead
    rfl
  | duration num den => cases h

/-- A token with the duration right behind it, if it takes one. -/
structure Group where
  token : Token
  length : Option Token

def groups : List Token → List Group
  | [] => []
  | [token] => [⟨token, none⟩]
  | token :: next :: rest =>
    if token.lexeme.takesDuration ∧ next.lexeme.isDuration then ⟨token, some next⟩ :: groups rest
    else ⟨token, none⟩ :: groups (next :: rest)

def Group.beats (g : Group) : Except Error Beats := Prod.fst <$> takeLength g.length.toList

def Group.event (g : Group) : Except Error Event := do
  match ← g.token.meaning with
  | .command command => pure (.command command)
  | .sound freqs => (fun duration => .note ⟨freqs, duration⟩) <$> g.beats

def meaning (tokens : List Token) : Except Error (List Event) := (groups tokens).mapM Group.event

theorem groups_cons_of_not {token : Token} {tokens : List Token}
    (h : token.lexeme.takesDuration = false ∨ ∀ next ∈ tokens.head?, next.lexeme.isDuration = false) :
    groups (token :: tokens) = ⟨token, none⟩ :: groups tokens := by
  cases tokens with
  | nil => rfl
  | cons next rest =>
    rw [groups, if_neg]
    rintro ⟨htoken, hnext⟩
    rcases h with h | h
    · rw [h] at htoken
      cases htoken
    · rw [h next rfl] at hnext
      cases hnext

/-- The length of a note is one beat or a duration behind it. -/
theorem takeLength_cases (tokens : List Token) :
    ((∀ next ∈ tokens.head?, next.lexeme.isDuration = false) ∧
        takeLength tokens = .ok (.one, tokens)) ∨
      ∃ next rest, tokens = next :: rest ∧ next.lexeme.isDuration = true ∧
        takeLength tokens = (takeLength [next]).map fun r => (r.1, rest) := by
  rcases tokens with _ | ⟨⟨lexeme, col⟩, rest⟩
  · exact .inl ⟨nofun, rfl⟩
  cases lexeme with
  | duration num den =>
    refine .inr ⟨_, rest, rfl, rfl, ?_⟩
    simp only [takeLength]
    cases Beats.ofFraction? num den <;> rfl
  | _ => exact .inl ⟨by simp [Lexeme.isDuration], rfl⟩

theorem groups_cons_token (token : Token) (tokens : List Token) :
    ∃ length rest, groups (token :: tokens) = ⟨token, length⟩ :: rest := by
  cases tokens with
  | nil => exact ⟨none, [], rfl⟩
  | cons next rest =>
    rw [groups]
    split
    · exact ⟨some next, _, rfl⟩
    · exact ⟨none, _, rfl⟩

/-- What a row of tokens means, unit by unit. -/
theorem meaning_cons (token : Token) (tokens : List Token) :
    meaning (token :: tokens) = (do
      match ← token.meaning with
      | .command command => (Event.command command :: ·) <$> meaning tokens
      | .sound freqs =>
        let r ← takeLength tokens
        (Event.note ⟨freqs, r.1⟩ :: ·) <$> meaning r.2) := by
  rcases groups_cons_token token tokens with ⟨length, rest, hgroups⟩
  cases hmeaning : token.meaning with
  | error e =>
    rw [meaning, hgroups, List.mapM_cons, Group.event, hmeaning]
    rfl
  | ok head =>
    have htakes := token.takesDuration_eq hmeaning
    cases head with
    | command command =>
      rw [meaning, groups_cons_of_not (.inl htakes), List.mapM_cons, Group.event, hmeaning]
      exact bind_pure_comp (Event.command command :: ·) (meaning tokens)
    | sound freqs =>
      rcases takeLength_cases tokens with ⟨hnext, hlength⟩ | ⟨next, rest, rfl, hnext, hlength⟩
      · rw [meaning, groups_cons_of_not (.inr hnext), List.mapM_cons, Group.event, hmeaning,
          hlength]
        exact bind_pure_comp (Event.note ⟨freqs, .one⟩ :: ·) (meaning tokens)
      · rw [meaning, groups, if_pos ⟨htakes, hnext⟩, List.mapM_cons, Group.event,
          hmeaning, hlength, Group.beats,
          Option.toList_some]
        cases takeLength [next] with
        | error e => rfl
        | ok r => exact bind_pure_comp (Event.note ⟨freqs, r.1⟩ :: ·) (meaning rest)

/-- The events behind those that are done are those that the tokens mean. -/
theorem says_eventsFrom (tokens : List Token) (done : Array Event) :
    Says (eventsFrom tokens done) ((done.toList ++ ·) <$> meaning tokens) := by
  -- unit by unit, as the reading and the meaning both go
  fun_induction eventsFrom tokens done with
  | case1 done =>
    change Says (pure done.toList) (.ok (done.toList ++ []))
    rw [List.append_nil]
    exact says_pure _
  | case2 done token tokens ih1 ih2 =>
    rw [meaning_cons, map_bind]
    refine (says_head token).bind fun head hhead => ?_
    cases head with
    | command command =>
      have ih := ih1 command
      rw [Array.toList_push] at ih
      simpa using ih
    | sound freqs =>
      dsimp only
      split
      · rename_i duration rest hlength
        have ih := ih2 freqs duration rest hlength
        rw [hlength]
        change Says _ ((done.toList ++ ·) <$> (Event.note ⟨freqs, duration⟩ :: ·) <$> meaning rest)
        simpa using ih
      · rename_i e hlength
        rw [hlength]
        exact says_throw e

/-- The events of a composition at any sound cache are those that its tokens mean. -/
theorem says_events (source : String) : Says (events source) (scan source >>= meaning) := by
  intro desk hdesk
  rw [events]
  cases scan source with
  | error e => exact ⟨rfl, hdesk⟩
  | ok tokens =>
    have h := says_eventsFrom tokens #[] desk hdesk
    change outcome (eventsFrom tokens #[] desk) = meaning tokens ∧ _
    simpa using h

def Token.later (n : Nat) (token : Token) : Token := ⟨token.lexeme, n + token.col⟩

def Group.later (n : Nat) (g : Group) : Group := ⟨g.token.later n, g.length.map (Token.later n)⟩

def Error.later (n : Nat) (e : Error) : Error := ⟨e.cause, n + e.col⟩

section

variable {α β : Type} (f : Error → Error)

theorem mapError_bind (x : Except Error α) (g : α → Except Error β) :
    (x >>= g).mapError f = x.mapError f >>= fun a => (g a).mapError f := by
  cases x <;> rfl

theorem mapError_map (x : Except Error α) (g : α → β) :
    (g <$> x).mapError f = g <$> x.mapError f := by
  cases x <;> rfl

theorem mapError_mapM (g : α → Except Error β) (l : List α) :
    (l.mapM g).mapError f = l.mapM fun a => (g a).mapError f := by
  induction l with
  | nil => rfl
  | cons a l ih =>
    rw [List.mapM_cons, List.mapM_cons, mapError_bind, ← ih]
    simp only [mapError_bind]
    rfl

end

theorem pitchAt_later (n col : Nat) (pitch : String) :
    pitchAt (n + col) pitch = (pitchAt col pitch).mapError (Error.later n) := by
  rw [pitchAt, pitchAt]
  cases frequency? pitch <;> rfl

theorem commandAt_later (n col : Nat) (key value : String) :
    commandAt (n + col) key value = (commandAt col key value).mapError (Error.later n) := by
  rw [commandAt, commandAt]
  cases readCommand key value <;> rfl

theorem Token.meaning_later (n : Nat) (token : Token) :
    (token.later n).meaning = token.meaning.mapError (Error.later n) := by
  unfold Token.meaning Token.later
  cases token.lexeme with
  | rest => rfl
  | note pitch =>
    dsimp only
    rw [mapError_bind, pitchAt_later]
    rfl
  | chord pitches =>
    dsimp only
    rw [mapError_bind, mapError_mapM, funext (pitchAt_later n token.col)]
    rfl
  | command key value =>
    dsimp only
    rw [mapError_bind, commandAt_later]
    rfl
  | duration => rfl

theorem Group.beats_later (n : Nat) (g : Group) :
    (g.later n).beats = g.beats.mapError (Error.later n) := by
  rcases g with ⟨_, _ | ⟨lexeme, col⟩⟩
  · rfl
  cases lexeme with
  | duration num den =>
    simp only [Group.beats, Group.later, Option.map_some, Option.toList_some, Token.later,
      takeLength]
    cases Beats.ofFraction? num den <;> rfl
  | _ => rfl

theorem groups_later (n : Nat) (tokens : List Token) :
    groups (tokens.map (Token.later n)) = (groups tokens).map (Group.later n) := by
  fun_induction groups tokens with
  | case1 => rfl
  | case2 token => rfl
  | case3 token next rest h ih =>
    rw [List.map_cons, List.map_cons, groups, if_pos (by exact h), ih]
    rfl
  | case4 token next rest h ih =>
    rw [List.map_cons, List.map_cons, groups, if_neg (by exact h), ← List.map_cons, ih]
    rfl

theorem Group.event_later (n : Nat) (g : Group) :
    (g.later n).event = g.event.mapError (Error.later n) := by
  rw [Group.event, Group.event, mapError_bind, Group.beats_later]
  change (g.token.later n).meaning >>= _ = _
  rw [Token.meaning_later]
  congr 1
  funext head
  cases head with
  | command command => rfl
  | sound freqs => exact (mapError_map _ _ _).symm

/-- Only the columns of errors depend on where the tokens stand. -/
theorem meaning_later (n : Nat) (tokens : List Token) :
    meaning (tokens.map (Token.later n)) = (meaning tokens).mapError (Error.later n) := by
  rw [meaning, meaning, groups_later, mapError_mapM, List.mapM_map]
  exact congrArg (fun f => List.mapM f (groups tokens)) (funext (Group.event_later n))

theorem groups_append {before after : List Token}
    (h : ∀ token ∈ after.head?, token.lexeme.isDuration = false) :
    groups (before ++ after) = groups before ++ groups after := by
  fun_induction groups before with
  | case1 => rfl
  | case2 token => exact groups_cons_of_not (.inr h)
  | case3 token next rest hnext ih =>
    rw [List.cons_append, List.cons_append, groups, if_pos hnext, ih]
    rfl
  | case4 token next rest hnext ih =>
    rw [List.cons_append, List.cons_append, groups, if_neg hnext, ← List.cons_append, ih]
    rfl

/-- The events of two rows of tokens, unless the second begins in the middle of a group. -/
theorem meaning_append {before after : List Token}
    (h : ∀ token ∈ after.head?, token.lexeme.isDuration = false) :
    meaning (before ++ after) = (do
      let events ← meaning before
      (events ++ ·) <$> meaning after) := by
  rw [meaning, groups_append h, List.mapM_append]
  simp [meaning]

end Polyphony.Notation
