import Polyphony.Effect.Rack

/-! # Samples behind the effects

An envelope scales each sample of an event where it stands. An echo gives each sample it
reaches the finished sample one delay earlier, so that the samples behind it obey a
recurrence from left to right. No effect touches a sample before its event.
-/
namespace Polyphony

namespace Envelope

@[simp] theorem shape_size (e : Envelope) (start count i : Nat) (b : Buffer) :
    (e.shape start count i b).size = b.size := by
  induction count generalizing i b with
  | zero => rfl
  | succ count ih => rw [shape, ih, Array.size_modify]

theorem shape_getElem? (e : Envelope) (start count i j : Nat) (b : Buffer) :
    (e.shape start count i b)[j]? =
      if i ≤ j ∧ j < i + count then b[j]?.map (· * e.gain (j - start) (b.size - j))
      else b[j]? := by
  induction count generalizing i b with
  | zero =>
    rw [if_neg (by omega)]
    rfl
  | succ count ih =>
    rw [shape, ih, Array.size_modify, Array.getElem?_modify]
    by_cases hij : i = j
    · subst hij
      rw [if_neg (by omega), if_pos rfl, if_pos (by omega)]
    · have hrange : (i + 1 ≤ j ∧ j < i + 1 + count) ↔ (i ≤ j ∧ j < i + (count + 1)) := by omega
      rw [if_neg hij]
      simp only [hrange]

@[simp] theorem apply_size (e : Envelope) (b : Buffer) (start : Nat) :
    (e.apply b start).size = b.size := e.shape_size _ _ _ b

/-- Exactly the samples from `start` on are scaled, each by its own gain. -/
theorem apply_getElem? (e : Envelope) (b : Buffer) (start i : Nat) :
    (e.apply b start)[i]? =
      if start ≤ i then b[i]?.map (· * e.gain (i - start) (b.size - i)) else b[i]? := by
  rw [apply, shape_getElem?]
  by_cases hi : i < b.size
  · have hrange : (start ≤ i ∧ i < start + (b.size - start)) ↔ start ≤ i := by omega
    simp only [hrange]
  · rw [Array.getElem?_eq_none (by omega)]
    simp

end Envelope

namespace Echo

@[simp] theorem feed_size (e : Echo) (count t : Nat) (b : Buffer) :
    (e.feed count t b).size = b.size := by
  induction count generalizing t b with
  | zero => rfl
  | succ count ih => rw [feed, ih, Array.size_modify]

@[simp] theorem apply_size (e : Echo) (b : Buffer) (start : Nat) :
    (e.apply b start).size = b.size := e.feed_size _ _ b

/-- What the sample `x` at index `i` hears in the finished samples `b`: the sample one
delay earlier, which is `x` itself when there is no delay. -/
def heard (e : Echo) (b : Buffer) (i : Nat) (x : Float) : Float :=
  e.amplitude * (if e.frameDelay = 0 then x else b.getD (i - e.frameDelay) 0)

/-- Of the finished samples only the one that is one delay earlier is heard. -/
theorem heard_congr (e : Echo) {b d : Buffer} {i : Nat} (x : Float)
    (h : 0 < e.frameDelay → b[i - e.frameDelay]? = d[i - e.frameDelay]?) :
    e.heard b i x = e.heard d i x := by
  rw [heard, heard]
  by_cases hk : e.frameDelay = 0
  · rw [if_pos hk, if_pos hk]
  · rw [if_neg hk, if_neg hk, Array.getD_eq_getD_getElem?, Array.getD_eq_getD_getElem?,
      h (by omega)]

theorem feed_getElem?_below (e : Echo) (count t j : Nat) (b : Buffer)
    (hj : j < t + e.frameDelay) : (e.feed count t b)[j]? = b[j]? := by
  induction count generalizing t b with
  | zero => rfl
  | succ count ih => rw [feed, ih _ _ (by omega), Array.getElem?_modify, if_neg (by omega)]

/-- The source of a step is finished when the step reads it: with a delay no later step
writes to it, and without one it is the target itself. -/
theorem heard_of_source (e : Echo) {b finished : Buffer} {t : Nat} {x : Float}
    (hx : b[t + e.frameDelay]? = some x) (hsource : 0 < e.frameDelay → finished[t]? = b[t]?) :
    e.heard finished (t + e.frameDelay) x = e.amplitude * b.getD t 0 := by
  rw [heard, Array.getD_eq_getD_getElem?, Array.getD_eq_getD_getElem?]
  by_cases hk : e.frameDelay = 0
  · rw [hk, Nat.add_zero] at hx
    rw [if_pos hk, hx, Option.getD_some]
  · rw [if_neg hk, Nat.add_sub_cancel, hsource (by omega)]

theorem feed_getElem?_reached (e : Echo) (count t j : Nat) (b : Buffer)
    (hlow : t + e.frameDelay ≤ j) (hhigh : j < t + count + e.frameDelay) :
    (e.feed count t b)[j]? = b[j]?.map fun x => x + e.heard (e.feed count t b) j x := by
  induction count generalizing t b with
  | zero => omega
  | succ count ih =>
    by_cases hj : j = t + e.frameDelay
    · subst hj
      have hsource (h : 0 < e.frameDelay) : (e.feed (count + 1) t b)[t]? = b[t]? :=
        e.feed_getElem?_below _ _ _ _ (by omega)
      rw [Option.map_congr fun x hx => by rw [e.heard_of_source hx hsource]]
      rw [feed, feed_getElem?_below _ _ _ _ _ (by omega), Array.getElem?_modify, if_pos rfl]
    · rw [feed, ih _ _ (by omega) (by omega), Array.getElem?_modify, if_neg (Ne.symm hj)]

/-- The samples behind an echo obey a recurrence over the finished samples. It begins at
`start`, and never earlier than one delay behind the activation. -/
theorem apply_getElem? (e : Echo) (b : Buffer) (start i : Nat) :
    (e.apply b start)[i]? =
      if start ≤ i ∧ e.activation + e.frameDelay ≤ i then
        b[i]?.map fun x => x + e.heard (e.apply b start) i x
      else b[i]? := by
  rw [apply]
  by_cases hi : i < b.size
  · by_cases hreach : start ≤ i ∧ e.activation + e.frameDelay ≤ i
    · rw [if_pos hreach, feed_getElem?_reached _ _ _ _ _ (by omega) (by omega)]
    · rw [if_neg hreach, feed_getElem?_below _ _ _ _ _ (by omega)]
  · rw [Array.getElem?_eq_none (by simpa using hi), Array.getElem?_eq_none (by omega)]
    simp

end Echo

namespace Rack

@[simp] theorem apply_size (r : Rack) (b : Buffer) (start : Nat) :
    (r.apply b start).size = b.size := by
  rcases r with ⟨_ | envelope, _ | echo⟩ <;> simp [apply, applyEnvelope, applyEcho]

def shaped (r : Rack) (age left : Nat) (x : Float) : Float :=
  match r.envelope with
  | some e => x * e.gain age left
  | none => x

def echoed (r : Rack) (b : Buffer) (i : Nat) (x : Float) : Float :=
  match r.echo with
  | some e => if e.activation + e.frameDelay ≤ i then x + e.heard b i x else x
  | none => x

theorem applyEnvelope_getElem? (r : Rack) (b : Buffer) (start i : Nat) :
    (r.applyEnvelope b start)[i]? =
      if start ≤ i then b[i]?.map (r.shaped (i - start) (b.size - i)) else b[i]? := by
  rcases r with ⟨_ | e, echo⟩
  · have hid : shaped ⟨none, echo⟩ (i - start) (b.size - i) = id := rfl
    rw [hid, Option.map_id_fun, id_eq, ite_self]
    rfl
  · exact e.apply_getElem? b start i

theorem applyEcho_getElem? (r : Rack) (b : Buffer) (start i : Nat) :
    (r.applyEcho b start)[i]? =
      if start ≤ i then b[i]?.map (r.echoed (r.applyEcho b start) i) else b[i]? := by
  rcases r with ⟨envelope, _ | e⟩
  · have hid : echoed ⟨envelope, none⟩ b i = id := rfl
    change b[i]? = if start ≤ i then b[i]?.map (echoed ⟨envelope, none⟩ b i) else b[i]?
    rw [hid, Option.map_id_fun, id_eq, ite_self]
  · change (e.apply b start)[i]? =
      if start ≤ i then b[i]?.map fun x => if e.activation + e.frameDelay ≤ i then
        x + e.heard (e.apply b start) i x else x else b[i]?
    by_cases hreach : e.activation + e.frameDelay ≤ i
    · simp only [e.apply_getElem? b start i, hreach, and_true, if_true]
    · simp only [e.apply_getElem? b start i, hreach, and_false, if_false, Option.map_id', ite_self]

theorem apply_getElem?_below (r : Rack) {b : Buffer} {start i : Nat} (hi : i < start) :
    (r.apply b start)[i]? = b[i]? := by
  rw [apply, applyEcho_getElem?, if_neg (by omega), applyEnvelope_getElem?, if_neg (by omega)]

/-- A sample of the event goes through the envelope first and then through the echo, which
feeds on finished samples. -/
theorem apply_getElem? (r : Rack) {b : Buffer} {start i : Nat} (hi : start ≤ i) :
    (r.apply b start)[i]? =
      b[i]?.map fun x => r.echoed (r.apply b start) i (r.shaped (i - start) (b.size - i) x) := by
  rw [apply, applyEcho_getElem?, if_pos hi, applyEnvelope_getElem?, if_pos hi, Option.map_map]
  rfl

end Rack
end Polyphony
