import Polyphony.Line.Rendering
import Polyphony.Proofs.Effect.Samples

/-! # Histories of a line

A history is the list of events that have led from one state to another, the latest first.
Each field of the later state is what the last command on it has set, and the samples of
the earlier state are never touched again.
-/
namespace Polyphony

namespace Command

def tempo? (base : Float) : Command → Option Float
  | .setTempo ratio => some (base * ratio)
  | _ => none

def dynamics? : Command → Option Float
  | .setDynamics scale => some scale
  | _ => none

def cents? : Command → Option Float
  | .setCents cents => some cents
  | _ => none

def preset? : Command → Option Preset
  | .setInstrument name => Preset.ofName? name
  | _ => none

def envelope? : Command → Option (Option Envelope)
  | .setEnvelope e => some (some e)
  | .removeEffect .envelope => some none
  | _ => none

/-- The echo that a command sets at a tempo behind a number of frames, or its absence. -/
def echo? (bpm : Float) (frames : Nat) : Command → Option (Option Echo)
  | .setEcho amplitude beatDelay =>
    some (some (.install amplitude beatDelay (framesPerBeat bpm) frames))
  | .removeEffect .echo => some none
  | _ => none

end Command

namespace LineState

/-- The events of a history, the latest first, lead from `s` to a state without failing. -/
inductive Reaches (s : LineState) : List Event → LineState → Prop
  | start : Reaches s [] s
  | step {past : List Event} {event : Event} {t u : LineState} :
      Reaches s past t → t.step event = .ok u → Reaches s (event :: past) u

/-- Behind a command each field is what the command sets it to, or as it was before. -/
theorem execute_eq_ok {s t : LineState} {c : Command} (h : s.execute c = .ok t) :
    t = { baseTempo := s.baseTempo
          bpm := (c.tempo? s.baseTempo).getD s.bpm
          dynamics := c.dynamics?.getD s.dynamics
          cents := c.cents?.getD s.cents
          instrument := c.preset?.getD s.instrument
          rack := ⟨c.envelope?.getD s.rack.envelope,
            (c.echo? s.bpm s.buffer.size).getD s.rack.echo⟩
          buffer := s.buffer } := by
  cases c with
  | setInstrument name =>
    rw [execute] at h
    split at h
    · rename_i preset hname
      obtain rfl := Except.ok.inj h
      rw [Command.preset?, hname]
      rfl
    · cases h
  | removeEffect id => cases id <;> exact (Except.ok.inj h).symm
  | _ => exact (Except.ok.inj h).symm

theorem extend_buffer (s : LineState) (samples : Buffer) :
    (s.extend samples).buffer = s.rack.apply (s.buffer ++ samples) s.buffer.size := rfl

/-- A note plays for as many frames as its length has, and changes nothing but the buffer. -/
theorem play_eq_ok_iff {s t : LineState} {note : Note} :
    s.play note = .ok t ↔
      ∃ frames, note.duration.toFrames s.bpm = some frames ∧
        t = s.extend (s.raw note.freqs frames) := by
  unfold play
  cases note.duration.toFrames s.bpm with
  | none => simp
  | some frames => simp [eq_comm]

theorem append_raw_size (s : LineState) (freqs : List Float) (frames : Nat) :
    (s.buffer ++ s.raw freqs frames).size = s.buffer.size + frames := by
  rw [Array.size_append, raw, Array.size_ofFn]

theorem play_buffer_size {s t : LineState} {note : Note} (h : s.play note = .ok t) :
    t.buffer.size = s.buffer.size + (note.duration.toFrames s.bpm).getD 0 := by
  rcases play_eq_ok_iff.mp h with ⟨frames, hframes, rfl⟩
  rw [extend_buffer, Rack.apply_size, append_raw_size, hframes, Option.getD_some]

theorem step_buffer_size_le {s t : LineState} {event : Event} (h : s.step event = .ok t) :
    s.buffer.size ≤ t.buffer.size := by
  cases event with
  | command c =>
    exact Nat.le_of_eq (by rw [execute_eq_ok h])
  | note note =>
    rw [play_buffer_size h]
    exact Nat.le_add_right _ _

namespace Reaches

variable {s t : LineState} {past : List Event}

theorem baseTempo_eq (h : s.Reaches past t) : t.baseTempo = s.baseTempo := by
  induction h with
  | start => rfl
  | @step past event t u _ hstep ih =>
    cases event with
    | command c => rw [execute_eq_ok hstep, ih]
    | note note =>
      rcases play_eq_ok_iff.mp hstep with ⟨_, -, rfl⟩
      exact ih

end Reaches

/-- What a field holds behind a history: what its last command has set, where `sets` gives
the value that a command behind a history sets, and else the value of the beginning. -/
def standing {α : Type} (sets : Command → List Event → Option α) (initial : α) : List Event → α
  | [] => initial
  | .command c :: past => (sets c past).getD (standing sets initial past)
  | .note _ :: past => standing sets initial past

theorem Reaches.standing_eq {s t : LineState} {past : List Event} {α : Type}
    {f : LineState → α} {sets : Command → List Event → Option α}
    (hcommand : ∀ {past t c u}, s.Reaches past t → t.execute c = .ok u →
      f u = (sets c past).getD (f t))
    (hnote : ∀ t samples, f (extend t samples) = f t) (h : s.Reaches past t) :
    f t = standing sets (f s) past := by
  induction h with
  | start => rfl
  | @step past event t u hpast hstep ih =>
    cases event with
    | command c => rw [hcommand hpast hstep, ih, standing]
    | note note =>
      rcases play_eq_ok_iff.mp hstep with ⟨_, -, rfl⟩
      rw [hnote, ih, standing]

def bpmAfter (s : LineState) : List Event → Float :=
  standing (fun c _ => c.tempo? s.baseTempo) s.bpm

/-- The frames behind a history: those of the beginning and those of each note, at the
tempo behind the events before it. -/
def framesAfter (s : LineState) : List Event → Nat
  | [] => s.buffer.size
  | .note note :: past =>
    s.framesAfter past + (note.duration.toFrames (s.bpmAfter past)).getD 0
  | .command _ :: past => s.framesAfter past

namespace Reaches

variable {s t : LineState} {past : List Event}

theorem bpm_eq (h : s.Reaches past t) : t.bpm = s.bpmAfter past :=
  h.standing_eq (fun ht hu => by rw [execute_eq_ok hu, ht.baseTempo_eq]) fun _ _ => rfl

theorem buffer_size_eq (h : s.Reaches past t) : t.buffer.size = s.framesAfter past := by
  induction h with
  | start => rfl
  | @step past event t u hpast hstep ih =>
    cases event with
    | command c => rw [execute_eq_ok hstep, ih, framesAfter]
    | note note => rw [play_buffer_size hstep, ih, hpast.bpm_eq, framesAfter]

end Reaches
end LineState

end Polyphony
