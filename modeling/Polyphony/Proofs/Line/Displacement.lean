import Polyphony.Proofs.Line.History

/-! # Displaced lines

Samples put in front of a state move everything that follows along with them: stepping the
displaced state is displacing the stepped one. So a state without an echo carries nothing
of its past audio forward, wherever in a line it stands.
-/
namespace Polyphony

theorem Buffer.modify_append (p c : Buffer) (i : Nat) (f : Float → Float) :
    (p ++ c).modify (p.size + i) f = p ++ c.modify i f := by
  apply Array.ext_getElem?
  intro j
  rw [Array.getElem?_modify]
  by_cases hj : j < p.size
  · rw [if_neg (by omega), Array.getElem?_append_left hj, Array.getElem?_append_left hj]
  · have hindex : p.size + i = j ↔ i = j - p.size := by omega
    rw [Array.getElem?_append_right (by omega), Array.getElem?_append_right (by omega),
      Array.getElem?_modify]
    simp only [hindex]

namespace Envelope

theorem shape_append (e : Envelope) (p c : Buffer) (start count i : Nat) :
    e.shape (p.size + start) count (p.size + i) (p ++ c) = p ++ e.shape start count i c := by
  induction count generalizing i c with
  | zero => rfl
  | succ count ih =>
    rw [shape, shape, Nat.add_sub_add_left, Array.size_append, Nat.add_sub_add_left,
      Buffer.modify_append, Nat.add_assoc, ih]

theorem apply_append (e : Envelope) (p c : Buffer) (start : Nat) :
    e.apply (p ++ c) (p.size + start) = p ++ e.apply c start := by
  rw [apply, Array.size_append, Nat.add_sub_add_left, shape_append, apply]

end Envelope

namespace Echo

def displaced (n : Nat) (e : Echo) : Echo := { e with activation := n + e.activation }

@[simp] theorem displaced_amplitude (n : Nat) (e : Echo) :
    (e.displaced n).amplitude = e.amplitude := rfl

@[simp] theorem displaced_frameDelay (n : Nat) (e : Echo) :
    (e.displaced n).frameDelay = e.frameDelay := rfl

@[simp] theorem displaced_activation (n : Nat) (e : Echo) :
    (e.displaced n).activation = n + e.activation := rfl

theorem feed_append (e : Echo) (n : Nat) (p c : Buffer) (count t : Nat) :
    (e.displaced n).feed count (p.size + t) (p ++ c) = p ++ e.feed count t c := by
  induction count generalizing t c with
  | zero => rfl
  | succ count ih =>
    have hsource : (p ++ c).getD (p.size + t) 0 = c.getD t 0 := by
      rw [Array.getD_eq_getD_getElem?, Array.getD_eq_getD_getElem?,
        Array.getElem?_append_right (Nat.le_add_right _ _), Nat.add_sub_cancel_left]
    rw [feed, feed, hsource, displaced_frameDelay, displaced_amplitude, Nat.add_assoc,
      Nat.add_assoc, Buffer.modify_append, ih]

/-- A displaced echo never reaches back into the samples in front. -/
theorem apply_append (e : Echo) (p c : Buffer) (start : Nat) :
    (e.displaced p.size).apply (p ++ c) (p.size + start) = p ++ e.apply c start := by
  have hfirst : max (p.size + start - e.frameDelay) (p.size + e.activation) =
      p.size + max (start - e.frameDelay) e.activation := by omega
  have hcount : p.size + c.size - e.frameDelay -
      (p.size + max (start - e.frameDelay) e.activation) =
        c.size - e.frameDelay - max (start - e.frameDelay) e.activation := by omega
  rw [apply, apply, displaced_frameDelay, displaced_activation, Array.size_append, hfirst,
    hcount, feed_append]

/-- The samples from the activation on depend on no sample before it. -/
theorem apply_congr (e : Echo) {b d : Buffer} (start : Nat)
    (h : ∀ i, e.activation ≤ i → b[i]? = d[i]?) (i : Nat) (hi : e.activation ≤ i) :
    (e.apply b start)[i]? = (e.apply d start)[i]? := by
  induction i using Nat.strongRecOn with
  | ind i ih =>
    rw [apply_getElem?, apply_getElem?, h i hi]
    by_cases hreach : start ≤ i ∧ e.activation + e.frameDelay ≤ i
    · rw [if_pos hreach, if_pos hreach]
      refine Option.map_congr fun x _ => ?_
      rw [e.heard_congr x fun hk => ih _ (by omega) (by omega)]
    · rw [if_neg hreach, if_neg hreach]

end Echo

namespace Rack

def displaced (n : Nat) (r : Rack) : Rack := ⟨r.envelope, r.echo.map (Echo.displaced n)⟩

theorem apply_append (r : Rack) (p c : Buffer) (start : Nat) :
    (r.displaced p.size).apply (p ++ c) (p.size + start) = p ++ r.apply c start := by
  have henvelope : (r.displaced p.size).applyEnvelope (p ++ c) (p.size + start) =
      p ++ r.applyEnvelope c start := by
    rcases r with ⟨_ | e, echo⟩
    · rfl
    · exact e.apply_append p c start
  rw [apply, henvelope, apply]
  rcases r with ⟨envelope, _ | e⟩
  · rfl
  · exact e.apply_append p _ start

end Rack

namespace LineState

/-- The same state behind the samples `p`. -/
def displaced (p : Buffer) (s : LineState) : LineState :=
  { s with rack := s.rack.displaced p.size, buffer := p ++ s.buffer }

theorem extend_displaced (p : Buffer) (s : LineState) (samples : Buffer) :
    (s.displaced p).extend samples = (s.extend samples).displaced p := by
  have hbuffer : (s.rack.displaced p.size).apply (p ++ s.buffer ++ samples)
      (p ++ s.buffer).size = p ++ s.rack.apply (s.buffer ++ samples) s.buffer.size := by
    rw [Array.append_assoc, Array.size_append, Rack.apply_append]
  simp only [extend, displaced, hbuffer]

/-- What is done to a displaced state is the displaced doing. -/
theorem step_displaced (p : Buffer) (s : LineState) (event : Event) :
    (s.displaced p).step event = (s.step event).map (displaced p) := by
  cases event with
  | note note =>
    change (s.displaced p).play note = (s.play note).map (displaced p)
    have hbpm : (s.displaced p).bpm = s.bpm := rfl
    rw [play, play, hbpm]
    cases note.duration.toFrames s.bpm with
    | none => rfl
    | some frames => exact congrArg Except.ok (extend_displaced p s _)
  | command c =>
    change (s.displaced p).execute c = (s.execute c).map (displaced p)
    cases c with
    | setInstrument name =>
      rw [execute, execute]
      cases Preset.ofName? name <;> rfl
    | setEcho amplitude beatDelay =>
      rw [execute, execute]
      simp [Except.map, displaced, Rack.displaced, Rack.setEcho, Echo.displaced, Echo.install]
    | removeEffect id => cases id <;> rfl
    | _ => rfl

/-- The state behind an event. An event that fails leaves the state as it is. -/
def goOn (s : LineState) (event : Event) : LineState :=
  match s.step event with
  | .ok t => t
  | .error _ => s

/-- What an event answers: the samples that it appends, or why it fails. -/
def answer (s : LineState) (event : Event) : Except EventError Buffer :=
  (s.step event).map fun t => t.buffer.extract s.buffer.size

def answers (s : LineState) : List Event → List (Except EventError Buffer)
  | [] => []
  | event :: events => s.answer event :: (s.goOn event).answers events

section

variable {f : LineState → LineState} {g : Event → Event}

/-- What carries a step over carries a whole run over. -/
theorem goOn_map (h : ∀ s event, (f s).step (g event) = (s.step event).map f) (s : LineState)
    (event : Event) : (f s).goOn (g event) = f (s.goOn event) := by
  rw [goOn, goOn, h]
  cases s.step event <;> rfl

theorem foldl_goOn_map (h : ∀ s event, (f s).step (g event) = (s.step event).map f)
    (s : LineState) (events : List Event) :
    (events.map g).foldl goOn (f s) = f (events.foldl goOn s) := by
  induction events generalizing s with
  | nil => rfl
  | cons event events ih => rw [List.map_cons, List.foldl_cons, List.foldl_cons, goOn_map h, ih]

theorem answers_map (h : ∀ s event, (f s).step (g event) = (s.step event).map f)
    (hanswer : ∀ s event, (f s).answer (g event) = s.answer event) (s : LineState)
    (events : List Event) : (f s).answers (events.map g) = s.answers events := by
  induction events generalizing s with
  | nil => rfl
  | cons event events ih => rw [List.map_cons, answers, answers, hanswer, goOn_map h, ih]

end

theorem answer_displaced (p : Buffer) (s : LineState) (event : Event) :
    (s.displaced p).answer event = s.answer event := by
  have hextract (c : Buffer) : (p ++ c).extract (p ++ s.buffer).size = c.extract s.buffer.size := by
    rw [Array.extract_append]
    simp
  rw [answer, answer, step_displaced]
  cases s.step event with
  | error cause => rfl
  | ok t => exact congrArg Except.ok (hextract t.buffer)

theorem foldl_goOn_displaced (p : Buffer) (s : LineState) (events : List Event) :
    events.foldl goOn (s.displaced p) = (events.foldl goOn s).displaced p := by
  have hmap := foldl_goOn_map (g := id) (step_displaced p) s events
  rwa [List.map_id] at hmap

theorem answers_displaced (p : Buffer) (s : LineState) (events : List Event) :
    (s.displaced p).answers events = s.answers events := by
  have hmap := answers_map (g := id) (step_displaced p) (answer_displaced p) s events
  rwa [List.map_id] at hmap

/-- Two states have the same settings: they differ at most in their echoes and samples. -/
structure Alike (s t : LineState) : Prop where
  baseTempo : s.baseTempo = t.baseTempo
  bpm : s.bpm = t.bpm
  dynamics : s.dynamics = t.dynamics
  cents : s.cents = t.cents
  instrument : s.instrument = t.instrument
  envelope : s.rack.envelope = t.rack.envelope

/-- Two states with the same settings have come equally far behind the samples `p` and `q`:
the same samples follow both, and an echo of both lies as far behind the end of `p` as
behind the end of `q`. -/
structure Abreast (p q : Buffer) (s t : LineState) : Prop extends Alike s t where
  samples : ∃ later, s.buffer = p ++ later ∧ t.buffer = q ++ later
  echo : ∃ e : Option Echo,
    s.rack.echo = e.map (Echo.displaced p.size) ∧ t.rack.echo = e.map (Echo.displaced q.size)

theorem displaced_abreast (p q : Buffer) (s : LineState) :
    Abreast p q (s.displaced p) (s.displaced q) where
  baseTempo := rfl
  bpm := rfl
  dynamics := rfl
  cents := rfl
  instrument := rfl
  envelope := rfl
  samples := ⟨s.buffer, rfl, rfl⟩
  echo := ⟨s.rack.echo, rfl, rfl⟩

def settled (s : LineState) : LineState :=
  { s with rack := ⟨s.rack.envelope, none⟩, buffer := #[] }

theorem Alike.settled_eq {s t : LineState} (h : s.Alike t) : s.settled = t.settled := by
  rw [settled, settled, h.baseTempo, h.bpm, h.dynamics, h.cents, h.instrument, h.envelope]

theorem settled_displaced {s : LineState} (h : s.rack.echo = none) :
    s.settled.displaced s.buffer = s := by
  rcases s with ⟨_, _, _, _, _, ⟨_, _⟩, _⟩
  simp only at h
  simp [settled, displaced, Rack.displaced, h]

/-- Two states without an echo answer alike, and stay abreast, whatever they are asked. -/
theorem Alike.abreast {s t : LineState} (h : s.Alike t) (hs : s.rack.echo = none)
    (ht : t.rack.echo = none) (events : List Event) :
    s.answers events = t.answers events ∧
      Abreast s.buffer t.buffer (events.foldl goOn s) (events.foldl goOn t) := by
  have hs' := settled_displaced hs
  have ht' := settled_displaced ht
  rw [← h.settled_eq] at ht'
  generalize s.settled = r at hs' ht'
  generalize s.buffer = p at hs' ⊢
  generalize t.buffer = q at ht' ⊢
  subst hs' ht'
  rw [answers_displaced, answers_displaced, foldl_goOn_displaced, foldl_goOn_displaced]
  exact ⟨rfl, displaced_abreast p q _⟩

/-- Two states with the same settings answer alike behind the removal of the echo. -/
theorem Alike.answers_remove {s t : LineState} (h : s.Alike t) (events : List Event) :
    s.answers (.command (.removeEffect .echo) :: events) =
      t.answers (.command (.removeEffect .echo) :: events) := by
  have hempty (u : LineState) : u.answer (.command (.removeEffect .echo)) = .ok #[] := by
    change Except.ok (u.buffer.extract u.buffer.size) = _
    simp
  have hnext : (s.goOn (.command (.removeEffect .echo))).Alike
      (t.goOn (.command (.removeEffect .echo))) :=
    ⟨h.baseTempo, h.bpm, h.dynamics, h.cents, h.instrument, h.envelope⟩
  rw [answers, answers, hempty, hempty, (hnext.abreast rfl rfl events).1]

/-- A passage that begins without an echo, or that begins by removing it, sounds the same
wherever it stands in a line: its answers depend on the settings alone. The reason is that
the samples from the activation of an echo on depend on no sample before it. -/
theorem answers_independent_of_past {s t : LineState} (h : s.Alike t) (events : List Event) :
    (s.rack.echo = none → t.rack.echo = none →
      s.answers events = t.answers events ∧
        Abreast s.buffer t.buffer (events.foldl goOn s) (events.foldl goOn t)) ∧
    s.answers (.command (.removeEffect .echo) :: events) =
      t.answers (.command (.removeEffect .echo) :: events) ∧
    ∀ (e : Echo) (b d : Buffer) (start : Nat), (∀ i, e.activation ≤ i → b[i]? = d[i]?) →
      ∀ i, e.activation ≤ i → (e.apply b start)[i]? = (e.apply d start)[i]? := by
  refine ⟨fun hs ht => ?_, h.answers_remove events, fun e b d start hbd i hi => ?_⟩
  · exact h.abreast hs ht events
  · exact e.apply_congr start hbd i hi

/-- A tone with an echo sounds the same behind two samples as at the beginning. -/
theorem answers_independent_of_past_tone :
    let s := start 120
    let t := { start 120 with buffer := #[0.5, -0.5] }
    let events : List Event := [.command (.setEcho 0.5 0.25), .note ⟨[440], .one⟩]
    s.Alike t ∧ s.rack.echo = none ∧ t.rack.echo = none ∧ s.answers events = t.answers events ∧
      Abreast #[] #[0.5, -0.5] (events.foldl goOn s) (events.foldl goOn t) := by
  intro s t events
  have h : s.Alike t := ⟨rfl, rfl, rfl, rfl, rfl, rfl⟩
  exact ⟨h, rfl, rfl, (answers_independent_of_past h events).1 rfl rfl⟩

end LineState
end Polyphony
