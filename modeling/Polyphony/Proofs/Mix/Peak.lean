import Polyphony.Mix.Schedule
import Polyphony.Proofs.Number.Encoding

/-! # Peaks

A peak is the largest magnitude of the defined sums. Its bits are the maximum of natural numbers,
so it does not matter in which order or how often sums are looked at.
-/
namespace Polyphony.Mix
open Number

/-- The largest magnitude of the sums that are defined, and zero if there are none. -/
structure IsPeak (sums : List Float) (peak : Float) : Prop where
  bound : ∀ x ∈ sums, x.isNaN = false → x.abs ≤ peak
  attained : (∃ x ∈ sums, x.isNaN = false ∧ peak = x.abs) ∨
    peak = 0 ∧ ∀ x ∈ sums, x.isNaN = true

def level (x : Float) : Nat := if x.isNaN then 0 else magnitude x

def topLevel : List Float → Nat
  | [] => 0
  | x :: xs => max (level x) (topLevel xs)

theorem level_of_isNaN {x : Float} (h : x.isNaN = true) : level x = 0 := by
  rw [level, if_pos h]

theorem level_of_defined {x : Float} (h : x.isNaN = false) : level x = x.abs.toBits.toNat := by
  rw [level, h, if_neg Bool.false_ne_true, abs_toBits h]

theorem level_le (x : Float) : level x ≤ infiniteBits := by
  by_cases h : x.isNaN = true
  · simp [level_of_isNaN h]
  · rw [level, if_neg h]
    rw [Bool.not_eq_true] at h
    exact (isNaN_eq_false_iff x).mp h

theorem topLevel_le_iff {xs : List Float} {c : Nat} :
    topLevel xs ≤ c ↔ ∀ x ∈ xs, level x ≤ c := by
  induction xs with
  | nil => simp [topLevel]
  | cons x xs ih => simp only [topLevel, Nat.max_le, ih, List.mem_cons, forall_eq_or_imp]

theorem topLevel_le (xs : List Float) : topLevel xs ≤ infiniteBits :=
  topLevel_le_iff.mpr fun x _ => level_le x

/-- The top level is that of a sum, unless all sums are undefined. -/
theorem topLevel_attained (xs : List Float) :
    (∃ x ∈ xs, x.isNaN = false ∧ topLevel xs = level x) ∨
      topLevel xs = 0 ∧ ∀ x ∈ xs, x.isNaN = true := by
  induction xs with
  | nil => exact .inr ⟨rfl, by simp⟩
  | cons x xs ih =>
    by_cases hx : x.isNaN = true
    · have htop : topLevel (x :: xs) = topLevel xs := by simp [topLevel, level_of_isNaN hx]
      rw [htop]
      rcases ih with ⟨y, hy, hdefined, heq⟩ | ⟨heq, hall⟩
      · exact .inl ⟨y, by simp [hy], hdefined, heq⟩
      · exact .inr ⟨heq, List.forall_mem_cons.mpr ⟨hx, hall⟩⟩
    · rw [Bool.not_eq_true] at hx
      by_cases hle : topLevel xs ≤ level x
      · exact .inl ⟨x, by simp, hx, by simp [topLevel, Nat.max_eq_left hle]⟩
      · rcases ih with ⟨y, hy, hdefined, heq⟩ | ⟨heq, -⟩
        · refine .inl ⟨y, by simp [hy], hdefined, ?_⟩
          rw [topLevel, Nat.max_eq_right (by omega), heq]
        · omega

section

variable {p q : Float}

theorem larger_toBits (hp : p.toBits.toNat ≤ infiniteBits) (hq : q.toBits.toNat ≤ infiniteBits) :
    (larger p q).toBits.toNat = max p.toBits.toNat q.toBits.toNat := by
  rw [larger, defined_of_toBits_le hp, if_neg Bool.false_ne_true]
  by_cases h : p < q
  · rw [if_pos h]
    rw [lt_iff hp hq] at h
    omega
  · rw [if_neg h]
    rw [lt_iff hp hq] at h
    omega

theorem larger_abs (hp : p.toBits.toNat ≤ infiniteBits) (x : Float) :
    larger p x.abs = louder p x := by
  rw [larger, defined_of_toBits_le hp, if_neg Bool.false_ne_true, louder]

theorem louder_toBits (hp : p.toBits.toNat ≤ infiniteBits) (x : Float) :
    (louder p x).toBits.toNat = max p.toBits.toNat (level x) := by
  by_cases hx : x.isNaN = true
  · have habs : x.abs.isNaN = true := by rw [abs_isNaN, hx]
    rw [louder, if_neg (not_lt_of_isNaN habs), level_of_isNaN hx, Nat.max_zero]
  · rw [Bool.not_eq_true] at hx
    have hlevel := level_of_defined hx
    have habs : x.abs.toBits.toNat ≤ infiniteBits := hlevel ▸ level_le x
    rw [← larger_abs hp, larger_toBits hp habs, hlevel]

theorem louder_toBits_le (hp : p.toBits.toNat ≤ infiniteBits) (x : Float) :
    (louder p x).toBits.toNat ≤ infiniteBits := by
  rw [louder_toBits hp]
  exact Nat.max_le.mpr ⟨hp, level_le x⟩

theorem foldl_louder_toBits (hp : p.toBits.toNat ≤ infiniteBits) (xs : List Float) :
    (xs.foldl louder p).toBits.toNat = max p.toBits.toNat (topLevel xs) := by
  induction xs generalizing p with
  | nil => simp [topLevel]
  | cons x xs ih =>
    rw [List.foldl_cons, ih (louder_toBits_le hp x), louder_toBits hp, topLevel, Nat.max_assoc]

/-- A float whose bits are the top level is the peak. -/
theorem isPeak_of_toBits {sums : List Float} (h : p.toBits.toNat = topLevel sums) :
    IsPeak sums p := by
  have hp : p.toBits.toNat ≤ infiniteBits := h ▸ topLevel_le sums
  refine ⟨fun x hx hdefined => ?_, ?_⟩
  · have hlevel := level_of_defined hdefined
    rw [le_iff (hlevel ▸ level_le x) hp, h, ← hlevel]
    exact topLevel_le_iff.mp (Nat.le_refl _) x hx
  · rcases topLevel_attained sums with ⟨x, hx, hdefined, heq⟩ | ⟨heq, hall⟩
    · refine .inl ⟨x, hx, hdefined, toBits_inj.mp (UInt64.toNat_inj.mp ?_)⟩
      rw [h, heq, level_of_defined hdefined]
    · refine .inr ⟨toBits_inj.mp (UInt64.toNat_inj.mp ?_), hall⟩
      rw [h, heq, toBits_zero]

end

end Polyphony.Mix
