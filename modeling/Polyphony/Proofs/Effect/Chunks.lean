import Polyphony.Proofs.Effect.Samples

/-! # Echoes over chunks

The recurrence of an echo has one solution. So it does not matter how the samples behind a
buffer are cut: an echo that runs after each chunk leaves what it leaves when it runs once
over all of them.
-/
namespace Polyphony

namespace Echo

/-- Whatever obeys the recurrence of an echo is what the echo leaves. -/
theorem eq_apply_of_recurrence (e : Echo) {b finished : Buffer} {start : Nat}
    (h : ∀ i, finished[i]? =
      if start ≤ i ∧ e.activation + e.frameDelay ≤ i then
        b[i]?.map fun x => x + e.heard finished i x
      else b[i]?) :
    finished = e.apply b start := by
  apply Array.ext_getElem?
  intro i
  induction i using Nat.strongRecOn with
  | ind i ih =>
    rw [h, apply_getElem?]
    by_cases hreach : start ≤ i ∧ e.activation + e.frameDelay ≤ i
    · rw [if_pos hreach, if_pos hreach]
      refine Option.map_congr fun x _ => ?_
      rw [e.heard_congr x fun hk => ih _ (by omega)]
    · rw [if_neg hreach, if_neg hreach]

theorem apply_size_self (e : Echo) (b : Buffer) : e.apply b b.size = b := by
  apply Array.ext_getElem?
  intro i
  rw [apply_getElem?]
  by_cases hi : b.size ≤ i
  · rw [Array.getElem?_eq_none hi]
    simp
  · rw [if_neg (by omega)]

/-- An echo that has run over a buffer goes on over the samples behind it. -/
theorem apply_append_apply (e : Echo) {b : Buffer} {start : Nat} (hstart : start ≤ b.size)
    (later : Buffer) :
    e.apply (e.apply b start ++ later) b.size = e.apply (b ++ later) start := by
  have hsize : (e.apply b start).size = b.size := e.apply_size b start
  have hkeep {i : Nat} (hi : i < b.size) :
      (e.apply (e.apply b start ++ later) b.size)[i]? = (e.apply b start)[i]? := by
    rw [apply_getElem?, if_neg (by omega), Array.getElem?_append_left (by omega)]
  apply eq_apply_of_recurrence
  intro i
  by_cases hi : i < b.size
  · -- the first run has finished this sample and all that it hears
    rw [hkeep hi, apply_getElem?, Array.getElem?_append_left hi]
    by_cases hreach : start ≤ i ∧ e.activation + e.frameDelay ≤ i
    · rw [if_pos hreach, if_pos hreach]
      refine Option.map_congr fun x _ => ?_
      rw [e.heard_congr x fun _ => hkeep (by omega)]
    · rw [if_neg hreach, if_neg hreach]
  · have hlater : (e.apply b start ++ later)[i]? = (b ++ later)[i]? := by
      rw [Array.getElem?_append_right (by omega), Array.getElem?_append_right (by omega), hsize]
    have hreach : (b.size ≤ i ∧ e.activation + e.frameDelay ≤ i) ↔
        (start ≤ i ∧ e.activation + e.frameDelay ≤ i) := by omega
    rw [apply_getElem?, hlater]
    simp only [hreach]

/-- Append a chunk to a buffer and run the echo for the event that it makes. -/
def applyBehind (e : Echo) (b chunk : Buffer) : Buffer := e.apply (b ++ chunk) b.size

theorem foldl_applyBehind_apply (e : Echo) {b : Buffer} {start : Nat} (hstart : start ≤ b.size)
    (chunks : List Buffer) :
    chunks.foldl e.applyBehind (e.apply b start) =
      e.apply (b ++ chunks.toArray.flatten) start := by
  induction chunks generalizing b with
  | nil => simp
  | cons chunk chunks ih =>
    have hchunk : start ≤ (b ++ chunk).size := by
      rw [Array.size_append]
      omega
    have hflatten : (chunk :: chunks).toArray.flatten = chunk ++ chunks.toArray.flatten := by simp
    rw [List.foldl_cons, applyBehind, apply_size, e.apply_append_apply hstart, ih hchunk,
      hflatten, Array.append_assoc]

/-- An echo that runs after each chunk behind a buffer leaves what it leaves when all chunks
are appended at once, wherever they are cut. -/
theorem foldl_applyBehind (e : Echo) (b : Buffer) (chunks : List Buffer) :
    chunks.foldl e.applyBehind b = e.apply (b ++ chunks.toArray.flatten) b.size := by
  have hchunks := e.foldl_applyBehind_apply (Nat.le_refl b.size) chunks
  rwa [apply_size_self] at hchunks

end Echo
end Polyphony
