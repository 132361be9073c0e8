import Polyphony.Proofs.Line.Displacement
import Polyphony.Proofs.Number.Scaling

/-! # Windowless envelopes

An envelope without attack, decay and release has the gain one at every frame. So a line may
remove its envelope wherever it installs such a one: no sample, no failure and no report is
different, and of a state nothing but the place of the envelope.
-/
namespace Polyphony

namespace Envelope

/-- Neither attack nor decay nor release, whatever the peak. -/
def isWindowless (e : Envelope) : Bool := e.attack == 0 && e.decay == 0 && e.release == 0

variable {e : Envelope}

theorem gain_of_isWindowless (h : e.isWindowless = true) (age left : Nat) :
    e.gain age left = 1 := by
  simp only [isWindowless, Bool.and_eq_true, beq_iff_eq] at h
  obtain ⟨⟨hattack, hdecay⟩, hrelease⟩ := h
  have hend : e.decayEnd = 0 := by rw [decayEnd, hattack, hdecay, Nat.zero_mod]
  -- no age and no distance to the end lies in an empty window
  rw [gain, hattack, hend, hrelease, if_neg (Nat.not_lt_zero age), if_neg (Nat.not_lt_zero age),
    if_neg (Nat.not_lt_zero left)]

theorem apply_of_isWindowless (h : e.isWindowless = true) (b : Buffer) (start : Nat) :
    e.apply b start = b := by
  apply Array.ext_getElem?
  intro i
  rw [apply_getElem?, gain_of_isWindowless h]
  simp only [Number.mul_one, Option.map_id', ite_self]

end Envelope

namespace Rack

def pruned (r : Rack) : Rack := { r with envelope := r.envelope.filter fun e => !e.isWindowless }

theorem pruned_setEnvelope (r : Rack) (e : Envelope) : (r.setEnvelope e).pruned =
    if e.isWindowless then r.pruned.remove .envelope else r.pruned.setEnvelope e := by
  cases hwindow : e.isWindowless with
  | false => simp [pruned, setEnvelope, Option.filter_some, hwindow]
  | true => simp [pruned, setEnvelope, remove, Option.filter_some, hwindow]

theorem apply_pruned (r : Rack) (b : Buffer) (start : Nat) :
    r.pruned.apply b start = r.apply b start := by
  rcases r with ⟨_ | e, echo⟩
  · rfl
  · cases hwindow : e.isWindowless with
    | false =>
      have hkept : pruned ⟨some e, echo⟩ = ⟨some e, echo⟩ := by
        simp [pruned, Option.filter_some, hwindow]
      rw [hkept]
    | true =>
      have hremoved : pruned ⟨some e, echo⟩ = ⟨none, echo⟩ := by
        simp [pruned, Option.filter_some, hwindow]
      have hshaped : applyEnvelope ⟨some e, echo⟩ b start = b :=
        Envelope.apply_of_isWindowless hwindow b start
      rw [hremoved, apply, apply, hshaped]
      rfl

end Rack

/-- The event that removes the envelope in place of installing a windowless one. -/
def Event.pruned : Event → Event
  | .command (.setEnvelope e) =>
    if e.isWindowless then .command (.removeEffect .envelope) else .command (.setEnvelope e)
  | event => event

namespace LineState

def pruned (s : LineState) : LineState := { s with rack := s.rack.pruned }

theorem extend_pruned (s : LineState) (samples : Buffer) :
    s.pruned.extend samples = (s.extend samples).pruned := by
  simp only [extend, pruned, Rack.apply_pruned]

/-- A step cannot tell a windowless envelope from none. -/
theorem step_pruned (s : LineState) (event : Event) :
    s.pruned.step event.pruned = (s.step event).map pruned := by
  cases event with
  | note note =>
    change s.pruned.play note = (s.play note).map pruned
    have hbpm : s.pruned.bpm = s.bpm := rfl
    rw [play, play, hbpm]
    cases note.duration.toFrames s.bpm with
    | none => rfl
    | some frames => exact congrArg Except.ok (extend_pruned s _)
  | command c =>
    cases c with
    | setEnvelope e =>
      have hset : s.execute (.setEnvelope e) = .ok { s with rack := s.rack.setEnvelope e } := rfl
      rw [Event.pruned, step, hset, Except.map, pruned, pruned, Rack.pruned_setEnvelope]
      cases e.isWindowless <;> rfl
    | setInstrument name =>
      change s.pruned.execute (.setInstrument name) = (s.execute (.setInstrument name)).map pruned
      rw [execute, execute]
      cases Preset.ofName? name <;> rfl
    | removeEffect id => cases id <;> rfl
    | _ => rfl

theorem answer_pruned (s : LineState) (event : Event) :
    s.pruned.answer event.pruned = s.answer event := by
  rw [answer, answer, step_pruned]
  cases s.step event <;> rfl

end LineState

namespace Line
open LineState

theorem renderFrom_pruned (name : String) (total i : Nat) (events : List Event) (s : LineState)
    (p : Progress) :
    renderFrom name total (events.map Event.pruned) i s.pruned p =
      renderFrom name total events i s p := by
  induction events generalizing i s p with
  | nil => rfl
  | cons event events ih =>
    rw [List.map_cons, renderFrom, renderFrom, step_pruned]
    cases s.step event with
    | error cause => rfl
    | ok t => exact ih (i + 1) t _

/-- A windowless envelope is as good as none. A line that removes the envelope instead renders to
the same samples or fails at the same event, with the same reports. Event by event it gives the
same samples or the same failure, and behind any number of events the states are the same but
for a windowless envelope. -/
theorem render_pruned (l : Line) :
    ({ l with events := l.events.map Event.pruned } : Line).render = l.render ∧
    (start l.baseTempo).answers (l.events.map Event.pruned) = (start l.baseTempo).answers l.events ∧
    ∀ i, ((l.events.take i).map Event.pruned).foldl goOn (start l.baseTempo) =
      ((l.events.take i).foldl goOn (start l.baseTempo)).pruned := by
  refine ⟨?_, ?_, fun i => ?_⟩
  · rw [render, render, List.length_map]
    exact renderFrom_pruned l.name l.events.length 0 l.events (start l.baseTempo) ⟨0, []⟩
  · exact answers_map step_pruned answer_pruned (start l.baseTempo) l.events
  · exact foldl_goOn_map step_pruned (start l.baseTempo) (l.events.take i)

end Line
end Polyphony
