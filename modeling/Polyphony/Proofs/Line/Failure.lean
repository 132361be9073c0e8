import Polyphony.Line.InPlace

/-! # Events that fail

An event that is carried out in place and fails has written nothing. So a line that goes on
behind its failures ends where the events that succeeded lead alone.
-/
namespace Polyphony.InPlace

variable {s t : LineState} {event : Event} {events : List Event} {cause : EventError}

/-- All or nothing: the new state, or a failure that leaves the state `s` as it was. -/
def atomic (s : LineState) :
    Except EventError LineState → EStateM.Result EventError LineState Unit
  | .ok t => .ok () t
  | .error cause => .error cause s

theorem execute_eq (s : LineState) (c : Command) : execute c s = atomic s (s.execute c) := by
  cases c with
  | setInstrument name =>
    rw [execute, LineState.execute]
    cases Preset.ofName? name <;> rfl
  | _ => rfl

/-- Sample by sample the buffer grows by the raw samples of a chord. -/
theorem sound_eq (freqs : List Float) (s : LineState) (count : Nat) :
    sound freqs count s = .ok ()
      { s with
        buffer := s.buffer ++
          Array.ofFn fun t : Fin count => LineState.voice s.instrument s.dynamics freqs t } := by
  induction count with
  | zero =>
    rw [Array.ofFn_zero, Array.append_empty]
    rfl
  | succ count ih =>
    rw [Array.ofFn_succ, Array.append_push]
    change EStateM.bind (sound freqs count) _ s = _
    rw [EStateM.bind, ih]
    rfl

theorem play_eq (s : LineState) (note : Note) : play note s = atomic s (s.play note) := by
  have hread (next : LineState → Work Unit) : (get >>= next) s = next s s := rfl
  rw [play, hread, LineState.play]
  cases note.duration.toFrames s.bpm with
  | none => rfl
  | some frames =>
    change EStateM.bind (sound _ frames) _ s = _
    rw [EStateM.bind, sound_eq]
    rfl

/-- In place an event does all that it does or nothing. -/
theorem step_eq (s : LineState) (event : Event) : step event s = atomic s (s.step event) := by
  cases event with
  | command c => exact execute_eq s c
  | note note => exact play_eq s note

theorem step_error (h : step event s = .error cause t) : t = s := by
  rw [step_eq] at h
  cases hstep : s.step event with
  | ok u =>
    rw [hstep] at h
    cases h
  | error _ =>
    rw [hstep] at h
    cases h
    rfl

theorem run_cons_of_ok (h : step event s = .ok () t) (events : List Event) :
    run (event :: events) s = run events t := by
  change EStateM.bind (step event) _ s = _
  rw [EStateM.bind, h]

theorem attempt_cons_of_ok (h : step event s = .ok () t) (events : List Event) :
    attempt (event :: events) s = (event :: (attempt events t).1, (attempt events t).2) := by
  rw [attempt, h]

theorem attempt_cons_of_error (h : step event s = .error cause t) (events : List Event) :
    attempt (event :: events) s = attempt events s := by
  rw [attempt, h, step_error h]

theorem attempt_sublist (events : List Event) (s : LineState) :
    (attempt events s).1.Sublist events := by
  induction events generalizing s with
  | nil => exact .slnil
  | cons event events ih =>
    cases h : step event s with
    | ok _ t =>
      rw [attempt_cons_of_ok h]
      exact (ih t).cons_cons event
    | error cause t =>
      rw [attempt_cons_of_error h]
      exact (ih s).cons event

theorem run_attempt (events : List Event) (s : LineState) :
    run (attempt events s).1 s = .ok () (attempt events s).2 := by
  induction events generalizing s with
  | nil => rfl
  | cons event events ih =>
    cases h : step event s with
    | ok _ t => rw [attempt_cons_of_ok h, run_cons_of_ok h, ih]
    | error cause t => rw [attempt_cons_of_error h, ih]

/-- Events that succeeded succeed again when those that failed are left out. -/
theorem attempt_attempt (events : List Event) (s : LineState) :
    attempt (attempt events s).1 s = attempt events s := by
  induction events generalizing s with
  | nil => rfl
  | cons event events ih =>
    cases h : step event s with
    | ok _ t => rw [attempt_cons_of_ok h, attempt_cons_of_ok h, ih]
    | error cause t => rw [attempt_cons_of_error h, ih]

/-- An event that fails leaves no trace: in place it does what its step says, or nothing. So a
line that goes on behind failures ends in the state that the events which succeeded lead to
alone, and each of these succeeds again. -/
theorem failure_leaves_no_trace (s : LineState) :
    (∀ event, step event s = atomic s (s.step event)) ∧
    (∀ event cause t, step event s = .error cause t → t = s) ∧
    ∀ events, (attempt events s).1.Sublist events ∧
      run (attempt events s).1 s = .ok () (attempt events s).2 ∧
      attempt (attempt events s).1 s = attempt events s := by
  refine ⟨step_eq s, fun event cause t h => step_error h, fun events => ?_⟩
  exact ⟨attempt_sublist events s, run_attempt events s, attempt_attempt events s⟩

/-- Nobody knows the instrument, and a line without it has the same tempo and tuning. -/
theorem failure_leaves_no_trace_unknown :
    let s := LineState.start 120
    let unknown : Event := .command (.setInstrument "kazoo")
    let events : List Event := [.command (.setTempo 0.5), unknown, .command (.setCents 50)]
    let succeeded : List Event := [.command (.setTempo 0.5), .command (.setCents 50)]
    (∃ cause t, step unknown s = .error cause t ∧ t = s) ∧
      run succeeded s = .ok () (attempt events s).2 := by
  intro s unknown events succeeded
  obtain ⟨-, hfailed, hevents⟩ := failure_leaves_no_trace s
  have hunknown : step unknown s = .error (.unknownInstrument "kazoo") s := rfl
  have hsucceeded : (attempt events s).1 = succeeded := rfl
  have hrun := (hevents events).2.1
  rw [hsucceeded] at hrun
  exact ⟨⟨_, _, hunknown, hfailed unknown _ _ hunknown⟩, hrun⟩

end Polyphony.InPlace
