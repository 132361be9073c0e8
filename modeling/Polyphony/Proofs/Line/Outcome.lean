import Polyphony.Proofs.Line.Guards

/-! # The outcome of a line

Whether a line renders, to how many frames, and where it fails can be told from its list of events
alone: an event fails for what it says itself at the tempo that the last ratio before it has set.
-/
namespace Polyphony

theorem Preset.ofName?_eq_none_iff {name : String} :
    ofName? name = none ↔ ∀ p : Preset, p.name ≠ name := by
  have hall (p : Preset) : p ∈ all := by cases p <;> decide
  simp [ofName?, List.find?_eq_none, hall]

namespace Event

def ratio? : Event → Option Float
  | .command (.setTempo ratio) => some ratio
  | _ => none

/-- Events that fail at a tempo, and why. -/
inductive Bad (bpm : Float) : Event → EventError → Prop
  | unknownInstrument {name : String} :
      (∀ p : Preset, p.name ≠ name) → Bad bpm (.command (.setInstrument name)) (.unknownInstrument name)
  | tooLong {note : Note} :
      note.duration.toFrames bpm = none → Bad bpm (.note note) (.tooLong note.duration bpm)

def frames (bpm : Float) : Event → Nat
  | .note n => (n.duration.toFrames bpm).getD 0
  | .command _ => 0

/-- An event with only what may count for the outcome of its line. -/
def plain : Event → Event
  | .note n => .note ⟨[], n.duration⟩
  | .command (.setTempo ratio) => .command (.setTempo ratio)
  | .command (.setInstrument name) => .command (.setInstrument name)
  | .command _ => .command (.removeEffect .echo)

end Event

namespace LineState

section

variable (s : LineState) (events : List Event) (i : Nat)

def tempoAt : Float :=
  match ((events.take i).filterMap Event.ratio?).getLast? with
  | some ratio => s.baseTempo * ratio
  | none => s.bpm

def FailsAt (cause : EventError) : Prop :=
  ∃ event, events[i]? = some event ∧ event.Bad (s.tempoAt events i) cause

def framesAt : Nat := (events[i]?.map (Event.frames (s.tempoAt events i))).getD 0

end

variable {s t : LineState} {event : Event} {events : List Event}

theorem step_eq_error_iff {cause : EventError} :
    s.step event = .error cause ↔ event.Bad s.bpm cause := by
  constructor
  · intro h
    cases event with
    | note note =>
      simp only [step, play] at h
      split at h
      · rename_i hnone
        cases h
        exact .tooLong hnone
      · cases h
    | command c =>
      cases c with
      | setInstrument name =>
        simp only [step, execute] at h
        split at h
        · cases h
        · rename_i hnone
          cases h
          exact .unknownInstrument (Preset.ofName?_eq_none_iff.mp hnone)
      | _ => cases h
  · intro h
    cases h with
    | unknownInstrument hname => simp [step, execute, Preset.ofName?_eq_none_iff.mpr hname]
    | tooLong hnone => simp [step, play, hnone]

theorem step_baseTempo (h : s.step event = .ok t) : t.baseTempo = s.baseTempo :=
  (Reaches.step .start h).baseTempo_eq

theorem step_bpm (h : s.step event = .ok t) :
    t.bpm = (event.ratio?.map (s.baseTempo * ·)).getD s.bpm := by
  rw [(Reaches.step .start h).bpm_eq]
  cases event with
  | note note => rfl
  | command c => cases c <;> rfl

theorem step_buffer_size (h : s.step event = .ok t) :
    t.buffer.size = s.buffer.size + event.frames s.bpm := by
  rw [(Reaches.step .start h).buffer_size_eq]
  cases event with
  | note note => rfl
  | command c => rfl

@[simp] theorem tempoAt_zero : s.tempoAt events 0 = s.bpm := rfl

theorem tempoAt_succ (h : s.step event = .ok t) (i : Nat) :
    s.tempoAt (event :: events) (i + 1) = t.tempoAt events i := by
  rw [tempoAt, tempoAt, step_baseTempo h, step_bpm h, List.take_succ_cons]
  cases hratio : event.ratio? with
  | none => simp [hratio]
  | some ratio =>
    rw [List.filterMap_cons_some hratio, List.getLast?_cons]
    cases ((events.take i).filterMap Event.ratio?).getLast? with
    | none => rfl
    | some last => rfl

theorem failsAt_zero {cause : EventError} :
    s.FailsAt (event :: events) 0 cause ↔ s.step event = .error cause := by
  simp [FailsAt, step_eq_error_iff]

theorem failsAt_succ (h : s.step event = .ok t) {i : Nat} {cause : EventError} :
    s.FailsAt (event :: events) (i + 1) cause ↔ t.FailsAt events i cause := by
  simp [FailsAt, tempoAt_succ h]

theorem not_failsAt_nil (i : Nat) (cause : EventError) : ¬ s.FailsAt [] i cause := by
  simp [FailsAt]

theorem sum_framesAt_cons (h : s.step event = .ok t) :
    ((List.range (event :: events).length).map (s.framesAt (event :: events))).sum =
      event.frames s.bpm + ((List.range events.length).map (t.framesAt events)).sum := by
  have hnext : s.framesAt (event :: events) ∘ Nat.succ = t.framesAt events := by
    funext i
    simp [framesAt, tempoAt_succ h]
  rw [List.length_cons, List.range_succ_eq_map, List.map_cons, List.map_map, hnext, List.sum_cons]
  rfl

end LineState

namespace Line
open LineState

variable {name : String} {total i : Nat} {events : List Event} {s : LineState} {p : Progress}

/-- A line fails at the first of its events that fails. -/
theorem renderFrom_eq_error_iff {e : RenderError} :
    (renderFrom name total events i s p).1 = .error e ↔
      ∃ k cause, s.FailsAt events k cause ∧ (∀ j < k, ∀ c, ¬ s.FailsAt events j c) ∧
        e = ⟨name, i + k, cause⟩ := by
  induction events generalizing i s p with
  | nil => simp [renderFrom, not_failsAt_nil]
  | cons event events ih =>
    rw [renderFrom]
    cases hstep : s.step event with
    | error cause =>
      constructor
      · intro h
        cases h
        exact ⟨0, cause, failsAt_zero.mpr hstep, by simp, rfl⟩
      · rintro ⟨k, cause', hfails, hfirst, rfl⟩
        cases k with
        | zero =>
          rw [failsAt_zero, hstep] at hfails
          cases hfails
          rfl
        | succ k => exact absurd (failsAt_zero.mpr hstep) (hfirst 0 (Nat.succ_pos k) cause)
    | ok t =>
      rw [ih]
      constructor
      · rintro ⟨k, cause, hfails, hfirst, rfl⟩
        refine ⟨k + 1, cause, (failsAt_succ hstep).mpr hfails, fun j hj c => ?_, by
          rw [Nat.add_assoc, Nat.add_comm 1]⟩
        cases j with
        | zero => simp [failsAt_zero, hstep]
        | succ j =>
          rw [failsAt_succ hstep]
          exact hfirst j (by omega) c
      · rintro ⟨k, cause, hfails, hfirst, rfl⟩
        cases k with
        | zero => simp [failsAt_zero, hstep] at hfails
        | succ k =>
          refine ⟨k, cause, (failsAt_succ hstep).mp hfails, fun j hj c => ?_, by
            rw [Nat.add_assoc, Nat.add_comm 1]⟩
          rw [← failsAt_succ hstep]
          exact hfirst (j + 1) (by omega) c

theorem renderFrom_buffer_size {b : Buffer} (h : (renderFrom name total events i s p).1 = .ok b) :
    (∀ k cause, ¬ s.FailsAt events k cause) ∧
      b.size = s.buffer.size + ((List.range events.length).map (s.framesAt events)).sum := by
  induction events generalizing i s p with
  | nil =>
    obtain rfl := Except.ok.inj h
    exact ⟨not_failsAt_nil, rfl⟩
  | cons event events ih =>
    rw [renderFrom] at h
    cases hstep : s.step event with
    | error cause =>
      rw [hstep] at h
      cases h
    | ok t =>
      rw [hstep] at h
      obtain ⟨hfails, hsize⟩ := ih h
      refine ⟨fun k cause => ?_, ?_⟩
      · cases k with
        | zero => simp [failsAt_zero, hstep]
        | succ k =>
          rw [failsAt_succ hstep]
          exact hfails k cause
      · rw [hsize, step_buffer_size hstep, sum_framesAt_cons hstep, Nat.add_assoc]

theorem renderFrom_eq_ok_iff_not_failsAt :
    (∃ b, (renderFrom name total events i s p).1 = .ok b) ↔
      ∀ k cause, ¬ s.FailsAt events k cause := by
  constructor
  · rintro ⟨b, h⟩
    exact (renderFrom_buffer_size h).1
  · intro hfails
    cases h : (renderFrom name total events i s p).1 with
    | ok b => exact ⟨b, rfl⟩
    | error e =>
      obtain ⟨k, cause, hk, -, -⟩ := renderFrom_eq_error_iff.mp h
      exact absurd hk (hfails k cause)

end Line

namespace Event

theorem ratio?_plain (event : Event) : event.plain.ratio? = event.ratio? := by
  cases event with
  | note n => rfl
  | command c => cases c <;> rfl

theorem frames_plain (bpm : Float) (event : Event) : event.plain.frames bpm = event.frames bpm := by
  cases event with
  | note n => rfl
  | command c => cases c <;> rfl

theorem bad_plain {bpm : Float} {event : Event} {cause : EventError} :
    event.plain.Bad bpm cause ↔ event.Bad bpm cause := by
  cases event with
  | note n =>
    constructor
    · intro h
      cases h with
      | tooLong hnone => exact .tooLong hnone
    · intro h
      cases h with
      | tooLong hnone => exact .tooLong hnone
  | command c =>
    cases c with
    | setInstrument name => rfl
    | setTempo ratio => rfl
    | _ => constructor <;> intro h <;> cases h

end Event

namespace LineState

variable {s : LineState} {events : List Event} {i : Nat}

theorem tempoAt_plain : s.tempoAt (events.map Event.plain) i = s.tempoAt events i := by
  rw [tempoAt, tempoAt, ← List.map_take, List.filterMap_map]
  have hratio : Event.ratio? ∘ Event.plain = Event.ratio? := funext Event.ratio?_plain
  rw [hratio]

theorem failsAt_plain {cause : EventError} :
    s.FailsAt (events.map Event.plain) i cause ↔ s.FailsAt events i cause := by
  rw [FailsAt, FailsAt, tempoAt_plain, List.getElem?_map]
  cases events[i]? with
  | none => simp
  | some event => simp [Event.bad_plain]

theorem framesAt_plain : s.framesAt (events.map Event.plain) i = s.framesAt events i := by
  simp [framesAt, tempoAt_plain, Function.comp_def, Event.frames_plain]

theorem tempoAt_take_append (after : List Event) {k : Nat} (hi : i < k) (hk : k ≤ events.length) :
    s.tempoAt (events.take k ++ after) i = s.tempoAt events i := by
  have htake : (events.take k ++ after).take i = events.take i := by
    rw [List.take_append_of_le_length (by simp; omega), List.take_take, Nat.min_eq_left (by omega)]
  rw [tempoAt, tempoAt, htake]

theorem failsAt_take_append (after : List Event) {k : Nat} (hi : i < k) (hk : k ≤ events.length)
    {cause : EventError} :
    s.FailsAt (events.take k ++ after) i cause ↔ s.FailsAt events i cause := by
  have hevent : (events.take k ++ after)[i]? = events[i]? := by
    rw [List.getElem?_append_left (by simp; omega), List.getElem?_take_of_lt hi]
  rw [FailsAt, FailsAt, tempoAt_take_append after hi hk, hevent]

end LineState

namespace Line
open LineState

section

variable (l : Line) (i : Nat)

/-- The tempo that stands before an event of the line: that of the line, times the last ratio before
the event if there is one. -/
def tempoAt : Float :=
  match ((l.events.take i).filterMap Event.ratio?).getLast? with
  | some ratio => l.baseTempo * ratio
  | none => l.baseTempo

def FailsAt (cause : EventError) : Prop :=
  ∃ event, l.events[i]? = some event ∧ event.Bad (l.tempoAt i) cause

def framesAt : Nat := (l.events[i]?.map (Event.frames (l.tempoAt i))).getD 0

theorem start_tempoAt : (start l.baseTempo).tempoAt l.events i = l.tempoAt i := rfl

theorem start_failsAt {cause : EventError} :
    (start l.baseTempo).FailsAt l.events i cause ↔ l.FailsAt i cause := by
  rw [LineState.FailsAt, FailsAt, start_tempoAt]

theorem start_framesAt : (start l.baseTempo).framesAt l.events = l.framesAt := by
  funext i
  rw [LineState.framesAt, framesAt, start_tempoAt]

end

variable (l : Line)

theorem FailsAt.lt_length {l : Line} {i : Nat} {cause : EventError} (h : l.FailsAt i cause) :
    i < l.events.length := by
  obtain ⟨event, hevent, -⟩ := h
  exact (List.getElem?_eq_some_iff.mp hevent).1

theorem render_eq_error_iff {e : RenderError} : l.render.1 = .error e ↔
    e.line = l.name ∧ l.FailsAt e.event e.cause ∧ ∀ i < e.event, ∀ cause, ¬ l.FailsAt i cause := by
  simp only [render, renderFrom_eq_error_iff, start_failsAt]
  constructor
  · rintro ⟨k, cause, hfails, hfirst, rfl⟩
    rw [Nat.zero_add]
    exact ⟨rfl, hfails, hfirst⟩
  · rintro ⟨hline, hfails, hfirst⟩
    refine ⟨e.event, e.cause, hfails, hfirst, ?_⟩
    rw [Nat.zero_add, ← hline]

theorem render_eq_ok_iff : (∃ b, l.render.1 = .ok b) ↔ ∀ i cause, ¬ l.FailsAt i cause := by
  simp only [render, renderFrom_eq_ok_iff_not_failsAt, start_failsAt]

theorem render_size {b : Buffer} (h : l.render.1 = .ok b) :
    b.size = ((List.range l.events.length).map l.framesAt).sum := by
  rw [(renderFrom_buffer_size h).2, start_framesAt]
  exact Nat.zero_add _

/-- A line comes out like the line of its plain events. -/
theorem render_plain : ({ l with events := l.events.map Event.plain } : Line).render.1.map Array.size =
    l.render.1.map Array.size := by
  have hfails (i : Nat) (cause : EventError) :
      ({ l with events := l.events.map Event.plain } : Line).FailsAt i cause ↔ l.FailsAt i cause :=
    (start_failsAt _ i).symm.trans (failsAt_plain.trans (start_failsAt l i))
  cases h : l.render.1 with
  | error e =>
    rw [render_eq_error_iff] at h
    have hplain : ({ l with events := l.events.map Event.plain } : Line).render.1 = .error e := by
      simpa only [render_eq_error_iff, hfails] using h
    rw [hplain]
  | ok b =>
    have hnever := l.render_eq_ok_iff.mp ⟨b, h⟩
    obtain ⟨b', hplain⟩ : ∃ b', ({ l with events := l.events.map Event.plain } : Line).render.1 =
        .ok b' := by
      simpa only [render_eq_ok_iff, hfails] using hnever
    have hframes : ({ l with events := l.events.map Event.plain } : Line).framesAt = l.framesAt := by
      rw [← start_framesAt, ← start_framesAt]
      exact funext fun i => framesAt_plain
    rw [hplain, Except.map, Except.map, render_size _ hplain, render_size _ h, List.length_map,
      hframes]

theorem failsAt_take_append (after : List Event) {i k : Nat} (hi : i < k)
    (hk : k ≤ l.events.length) {cause : EventError} :
    ({ l with events := l.events.take k ++ after } : Line).FailsAt i cause ↔ l.FailsAt i cause :=
  (start_failsAt _ i).symm.trans
    ((LineState.failsAt_take_append after hi hk).trans (start_failsAt l i))

/-- Which events fail decides how a line comes out: it renders to the frames of its notes unless an
event fails, and else the first that fails is what it reports. The tones, the settings and the
events behind that one do not count. Under guard a line comes out like this or is stopped, and it
is never stopped while there is room in 64 bits for its envelopes and its frames. -/
theorem render_outcome :
    ((∃ b, l.render.1 = .ok b) ↔ ∀ i cause, ¬ l.FailsAt i cause) ∧
    (∀ b, l.render.1 = .ok b →
      b.size = ((List.range l.events.length).map l.framesAt).sum ∧
      ∀ (i : Nat) (n : Note), l.events[i]? = some (.note n) →
        ∃ frames ≤ maxEventFrames, n.duration.toFrames (l.tempoAt i) = some frames) ∧
    (∀ e, l.render.1 = .error e ↔
      e.line = l.name ∧ l.FailsAt e.event e.cause ∧
        ∀ i < e.event, ∀ cause, ¬ l.FailsAt i cause) ∧
    (∀ events, events.map Event.plain = l.events.map Event.plain →
      ({ l with events := events } : Line).render.1.map Array.size =
        l.render.1.map Array.size) ∧
    (∀ e, l.render.1 = .error e → ∀ after,
      ({ l with events := l.events.take (e.event + 1) ++ after } : Line).render.1 = .error e) ∧
    (∀ r, l.renderGuarded? = some r → r = l.render) ∧
    ((∀ e, .command (.setEnvelope e) ∈ l.events → e.Fits) →
      l.events.length * maxEventFrames < Number.countBound →
        l.renderGuarded? = some l.render) := by
  refine ⟨l.render_eq_ok_iff, fun b hb => ⟨l.render_size hb, fun i note hnote => ?_⟩,
    fun e => l.render_eq_error_iff, fun events hplain => ?_, fun e he after => ?_,
    l.renderGuarded?_agrees, l.renderGuarded?_eq⟩
  · have hfails := l.render_eq_ok_iff.mp ⟨b, hb⟩ i
    cases hframes : note.duration.toFrames (l.tempoAt i) with
    | none => exact absurd ⟨_, hnote, .tooLong hframes⟩ (hfails _)
    | some frames => exact ⟨frames, Beats.toFrames_le hframes, rfl⟩
  · have hevents := render_plain { l with events := events }
    rw [← hevents, ← l.render_plain, hplain]
  · rw [render_eq_error_iff] at he
    obtain ⟨hline, hfails, hfirst⟩ := he
    have hlength := hfails.lt_length
    rw [render_eq_error_iff]
    refine ⟨hline, (l.failsAt_take_append after (by omega) (by omega)).mpr hfails,
      fun i hi cause => ?_⟩
    rw [failsAt_take_append l after (by omega) (by omega)]
    exact hfirst i hi cause

/-- At half its tempo a line cannot play two hours, and stops there before an instrument that
nobody knows. At its own tempo of 90 a faded beat takes 29400 frames, under guard as well. -/
theorem render_outcome_stopped :
    let long : Beats := ⟨5400, 1, by decide⟩
    let stopped : Line := ⟨"bass", 90, [.note ⟨[440], .one⟩, .command (.setTempo 0.5),
      .note ⟨[], long⟩, .command (.setInstrument "kazoo")]⟩
    let faded : Line := ⟨"bass", 90, [.command (.setEnvelope ⟨2, 10, 20, 30⟩), .note ⟨[440], .one⟩]⟩
    stopped.render.1 = .error ⟨"bass", 2, .tooLong long 45⟩ ∧
      ∃ b, faded.render.1 = .ok b ∧ b.size = 29400 ∧ faded.renderGuarded? = some faded.render := by
  intro long stopped faded
  obtain ⟨-, -, herror, -⟩ := stopped.render_outcome
  obtain ⟨hrenders, hsize, -, -, -, -, hguard⟩ := faded.render_outcome
  have htempo : stopped.tempoAt 2 = 45 := by decide +kernel
  have hlong : long.toFrames (stopped.tempoAt 2) = none := by decide
  have hbeat : Beats.one.toFrames 90 = some 29400 := by decide
  refine ⟨(herror _).mpr ⟨rfl, ⟨_, rfl, htempo ▸ .tooLong hlong⟩, fun i hi cause => ?_⟩, ?_⟩
  · rintro ⟨event, hevent, hbad⟩
    match i with
    | 0 =>
      obtain rfl := Option.some.inj hevent
      cases hbad with
      | tooLong hnone => exact absurd hnone (hbeat ▸ nofun)
    | 1 =>
      obtain rfl := Option.some.inj hevent
      cases hbad
    | i + 2 => exact absurd (show i + 2 < 2 from hi) (by omega)
  · obtain ⟨b, hb⟩ : ∃ b, faded.render.1 = .ok b := by
      refine hrenders.mpr fun i cause => ?_
      rintro ⟨event, hevent, hbad⟩
      match i with
      | 0 =>
        obtain rfl := Option.some.inj hevent
        cases hbad
      | 1 =>
        obtain rfl := Option.some.inj hevent
        cases hbad with
        | tooLong hnone => exact absurd hnone (hbeat ▸ nofun)
      | i + 2 => cases hevent
    refine ⟨b, hb, ?_, hguard ?_ (by decide)⟩
    · rw [(hsize b hb).1]
      decide
    · rintro e he
      obtain rfl : e = ⟨2, 10, 20, 30⟩ := by simpa [faded] using he
      exact show 10 + 20 < Number.countBound by decide

end Line
end Polyphony
