import Polyphony.Mix.Mixdown
import Polyphony.Proofs.Mix.Schedules
import Polyphony.Proofs.Number.Arithmetic

/-! # Silent lines

A line of zeros is neutral in a mix, wherever it stands. It changes sums at most in the signs of
zeros, and neither the peak nor the samples of a mix can tell these. Where it goes on behind the
other lines, the mix is silent.
-/
namespace Polyphony
open Number

namespace Mix

/-- A buffer of zeros, of either sign. -/
def Silent (b : Buffer) : Prop := ∀ x ∈ b, (x == 0) = true

theorem longest_le_iff {buffers : List Buffer} {n : Nat} :
    longest buffers ≤ n ↔ ∀ b ∈ buffers, b.size ≤ n := by
  obtain ⟨-, hcovers, hreached⟩ := foldl_max_size buffers 0
  change (∀ b ∈ buffers, b.size ≤ longest buffers) at hcovers
  change longest buffers = 0 ∨ ∃ b ∈ buffers, b.size = longest buffers at hreached
  constructor
  · exact fun hle b hb => Nat.le_trans (hcovers b hb) hle
  · intro hall
    rcases hreached with hzero | ⟨b, hb, heq⟩
    · omega
    · exact heq ▸ hall b hb

theorem longest_insert (before after : List Buffer) (b : Buffer) :
    longest (before ++ b :: after) = max (longest (before ++ after)) b.size := by
  refine eq_of_forall_ge_iff fun n => ?_
  simp only [Nat.max_le, longest_le_iff, List.forall_mem_append, List.forall_mem_cons]
  tauto

theorem frameSum_insert (before after : List Buffer) {b : Buffer} (h : Silent b) (t : Nat) :
    Agree (frameSum (before ++ b :: after) t) (frameSum (before ++ after) t) := by
  simp only [frameSum, List.filterMap_append, List.filterMap_cons]
  cases hx : b[t]? with
  | none => exact .refl _
  | some x => exact agree_total_insert _ _ (h x (Array.mem_of_getElem? hx))

/-- Behind all lines there is nothing to add. -/
theorem frameSum_isZero {buffers : List Buffer} {t : Nat} (h : longest buffers ≤ t) :
    (frameSum buffers t == 0) = true := by
  have hnone : buffers.filterMap (·[t]?) = [] :=
    List.filterMap_eq_nil_iff.mpr fun b hb =>
      Array.getElem?_eq_none (longest_le_iff.mp h b hb)
  rw [frameSum, hnone]
  rfl

theorem level_of_isZero (x : Float) (h : (x == 0) = true) : level x = 0 := by
  rcases eq_of_isZero h with rfl | rfl
  · decide
  · decide

/-- The frames behind all lines do not count for the peak, so it is bounded as all frames are. -/
theorem sum_peak_le_iff {buffers : List Buffer} {n : Nat} :
    (sum buffers).peak.toBits.toNat ≤ n ↔ ∀ t, level (frameSum buffers t) ≤ n := by
  rw [sum_peak_toBits, topLevel_le_iff]
  constructor
  · intro h t
    by_cases ht : t < longest buffers
    · have hframe := sum_getElem? buffers t
      rw [if_pos ht] at hframe
      exact h _ (Array.mem_toList_iff.mpr (Array.mem_of_getElem? hframe))
    · rw [level_of_isZero _ (frameSum_isZero (Nat.le_of_not_lt ht))]
      exact Nat.zero_le n
  · intro h x hx
    obtain ⟨t, hframe⟩ := Array.mem_iff_getElem?.mp (Array.mem_toList_iff.mp hx)
    rw [sum_getElem?] at hframe
    split at hframe
    · exact Option.some.inj hframe ▸ h t
    · cases hframe

theorem sum_peak_congr {buffers buffers' : List Buffer}
    (h : ∀ t, level (frameSum buffers t) = level (frameSum buffers' t)) :
    (sum buffers).peak = (sum buffers').peak := by
  apply toBits_inj.mp
  apply UInt64.toNat_inj.mp
  refine eq_of_forall_ge_iff fun n => ?_
  simp only [sum_peak_le_iff, h]

theorem sum_peak_pos {buffers : List Buffer} (h : ((sum buffers).peak == 0) = false) :
    0 < (sum buffers).peak := by
  have hle : (sum buffers).peak.toBits.toNat ≤ infiniteBits :=
    sum_peak_toBits buffers ▸ topLevel_le _
  rw [lt_iff (by simp [toBits_zero]) hle, toBits_zero, Nat.pos_iff_ne_zero]
  intro hzero
  have hpeak : (sum buffers).peak = 0 :=
    toBits_inj.mp (UInt64.toNat_inj.mp (hzero.trans toBits_zero.symm))
  rw [hpeak] at h
  cases h

theorem sum_peak_insert (before after : List Buffer) {b : Buffer} (h : Silent b) :
    (sum (before ++ b :: after)).peak = (sum (before ++ after)).peak :=
  sum_peak_congr fun t => (frameSum_insert before after h t).congr level_of_isZero

end Mix

namespace Mixdown
open Mix

theorem quantize_of_isZero {x : Float} (h : (x == 0) = true) : quantize x = 0 := by
  rcases eq_of_isZero h with rfl | rfl
  · decide
  · decide

def sampleAt (peak x : Float) : Int16 := if peak == 0 then 0 else quantize (x / peak)

theorem sampleAt_of_isZero {peak : Float} (hpeak : (peak == 0) = false → 0 < peak) (x : Float)
    (h : (x == 0) = true) : sampleAt peak x = 0 := by
  cases hzero : peak == 0 with
  | true => rw [sampleAt, hzero, if_pos rfl]
  | false =>
    rw [sampleAt, hzero, if_neg Bool.false_ne_true]
    exact quantize_of_isZero (isZero_div h (hpeak hzero))

section

variable (buffers : List Buffer)

/-- Each sample of a mix is made of the sum of its frame alone. -/
theorem ofLines_eq : ofLines buffers =
    ⟨(sum buffers).samples.map (sampleAt (sum buffers).peak), (sum buffers).peak⟩ := by
  unfold ofLines
  dsimp only
  cases hzero : (sum buffers).peak == 0 with
  | true =>
    have hsample : sampleAt (sum buffers).peak = fun _ => 0 := by
      funext x
      rw [sampleAt, hzero, if_pos rfl]
    rw [if_pos rfl, hsample, Array.map_const']
  | false =>
    have hsample : sampleAt (sum buffers).peak = quantize ∘ (· / (sum buffers).peak) := by
      funext x
      rw [sampleAt, hzero, if_neg Bool.false_ne_true]
      rfl
    rw [if_neg Bool.false_ne_true, hsample, Mix.normalize, if_pos (sum_peak_pos hzero),
      Array.map_map]

theorem ofLines_frames : (ofLines buffers).frames = longest buffers := by
  rw [frames, ofLines_eq, Array.size_map, sum_size]

theorem ofLines_getElem? (t : Nat) : (ofLines buffers).samples[t]? =
    if t < longest buffers then some (sampleAt (sum buffers).peak (frameSum buffers t))
    else none := by
  rw [ofLines_eq, Array.getElem?_map, sum_getElem?]
  split
  · rfl
  · rfl

end

/-- A silent line may stand anywhere in a mix. It can only make it longer, by silence. -/
theorem ofLines_insert_silent (before after : List Buffer) (b : Buffer) (h : Silent b) :
    (ofLines (before ++ b :: after)).peak = (ofLines (before ++ after)).peak ∧
    (ofLines (before ++ b :: after)).isSilent = (ofLines (before ++ after)).isSilent ∧
    (ofLines (before ++ b :: after)).frames = max (ofLines (before ++ after)).frames b.size ∧
    (∀ t < (ofLines (before ++ after)).frames,
      (ofLines (before ++ b :: after)).samples[t]? = (ofLines (before ++ after)).samples[t]?) ∧
    ∀ t < (ofLines (before ++ b :: after)).frames, (ofLines (before ++ after)).frames ≤ t →
      (ofLines (before ++ b :: after)).samples[t]? = some 0 := by
  have hpeak : (ofLines (before ++ b :: after)).peak = (ofLines (before ++ after)).peak := by
    rw [ofLines_eq, ofLines_eq, sum_peak_insert before after h]
  have hzero (x : Float) (hx : (x == 0) = true) : sampleAt (sum (before ++ after)).peak x = 0 :=
    sampleAt_of_isZero sum_peak_pos x hx
  have hsample (t : Nat) :
      sampleAt (sum (before ++ after)).peak (frameSum (before ++ b :: after) t) =
        sampleAt (sum (before ++ after)).peak (frameSum (before ++ after) t) :=
    (frameSum_insert before after h t).congr hzero
  have hlonger := longest_insert before after b
  -- behind the other lines every sum is a zero, and in front of their end it agrees with theirs
  refine ⟨hpeak, by rw [isSilent, isSilent, hpeak], ?_, fun t ht => ?_, fun t ht hend => ?_⟩
  · rw [ofLines_frames, ofLines_frames, hlonger]
  · rw [ofLines_frames] at ht
    rw [ofLines_getElem?, ofLines_getElem?, if_pos ht, if_pos (by omega),
      sum_peak_insert before after h, hsample]
  · rw [ofLines_frames] at ht hend
    rw [ofLines_getElem?, if_pos ht, sum_peak_insert before after h, hsample,
      hzero _ (frameSum_isZero hend)]

/-- Four zeros between two lines, of which the longer one has an undefined frame. -/
theorem ofLines_insert_silent_between :
    (ofLines [#[1, -2, 0 / 0], #[0, -0.0, 0, -0.0], #[1]]).peak =
        (ofLines [#[1, -2, 0 / 0], #[1]]).peak ∧
      (ofLines [#[1, -2, 0 / 0], #[0, -0.0, 0, -0.0], #[1]]).samples[1]? =
        (ofLines [#[1, -2, 0 / 0], #[1]]).samples[1]? ∧
      (ofLines [#[1, -2, 0 / 0], #[0, -0.0, 0, -0.0], #[1]]).samples[3]? = some 0 := by
  have hsilent : Silent #[0, -0.0, 0, -0.0] := by
    rw [Silent]
    decide
  obtain ⟨hpeak, -, -, hkept, hadded⟩ :=
    ofLines_insert_silent [#[1, -2, 0 / 0]] [#[1]] _ hsilent
  exact ⟨hpeak, hkept 1 (by rw [ofLines_frames]; decide),
    hadded 3 (by rw [ofLines_frames]; decide) (by rw [ofLines_frames]; decide)⟩

end Mixdown
end Polyphony
