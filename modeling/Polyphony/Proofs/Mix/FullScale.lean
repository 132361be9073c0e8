import Polyphony.Proofs.Mix.Silence
import Polyphony.Proofs.Number.Scaling

/-! # Full scale

A mix whose peak is positive and finite reaches the ends of the 16-bit range where a sum reaches
the peak, and its samples are in the order of the sums. A mix of an infinite peak has no sound.
-/
namespace Polyphony.Mixdown
open Mix Number

theorem toInt_quantize (x : Float) : (quantize x).toInt =
    if x * 32768.0 < 0 then -((min 32768 (-(x * 32768.0)).toUInt64.toNat : Nat) : Int)
    else (min 32767 (x * 32768.0).toUInt64.toNat : Nat) := by
  simp only [quantize]
  split
  · exact Int16.toInt_ofInt_of_le (by omega) (by omega)
  · exact Int16.toInt_ofInt_of_le (by omega) (by omega)

theorem quantize_mono {x y : Float} (h : x ≤ y) : quantize x ≤ quantize y := by
  obtain ⟨a, b, hscaling⟩ := isScaling_mul (p := 32768.0) (by decide) (by decide)
  have hlevel : x * 32768.0 ≤ y * 32768.0 := hscaling.le h
  obtain ⟨hx, hy⟩ := defined_of_le hlevel
  have hzero : (0 : Float).isNaN = false := rfl
  have hneg : -(y * 32768.0) ≤ -(x * 32768.0) := by
    rw [le_iff_rank hx hy] at hlevel
    rw [le_iff_rank (defined_neg hy) (defined_neg hx), rank_neg hx, rank_neg hy]
    omega
  have hup := UInt64.le_iff_toNat_le.mp (toUInt64_mono hlevel)
  have hdown := UInt64.le_iff_toNat_le.mp (toUInt64_mono hneg)
  rw [Int16.le_iff_toInt_le, toInt_quantize, toInt_quantize]
  by_cases hxneg : x * 32768.0 < 0
  · rw [if_pos hxneg]
    split
    · omega
    · omega
  · have hyneg : ¬ y * 32768.0 < 0 := by
      rw [lt_iff_rank hx hzero] at hxneg
      rw [lt_iff_rank hy hzero]
      rw [le_iff_rank hx hy] at hlevel
      omega
    rw [if_neg hxneg, if_neg hyneg]
    omega

theorem quantize_of_isNaN {x : Float} (h : x.isNaN = true) : quantize x = 0 := by
  have hx : x = 0 / 0 := by
    have hpack := pack_unpack x
    rw [unpack_eq_of_isNaN h] at hpack
    exact hpack.symm
  rw [hx]
  decide

section

variable {p x y : Float}

theorem sampleAt_of_pos (hpos : 0 < p) (x : Float) : sampleAt p x = quantize (x / p) := by
  cases hzero : p == 0 with
  | true => rcases eq_of_isZero hzero with rfl | rfl <;> exact absurd hpos (by decide)
  | false => rw [sampleAt, hzero, if_neg Bool.false_ne_true]

theorem sampleAt_mono (hfinite : p.isFinite = true) (hpos : 0 < p) (h : x ≤ y) :
    sampleAt p x ≤ sampleAt p y := by
  obtain ⟨a, b, hscaling⟩ := isScaling_div hfinite hpos
  rw [sampleAt_of_pos hpos, sampleAt_of_pos hpos]
  exact quantize_mono (hscaling.le h)

theorem sampleAt_of_isNaN (hfinite : p.isFinite = true) (hpos : 0 < p) (h : x.isNaN = true) :
    sampleAt p x = 0 := by
  obtain ⟨a, b, hscaling⟩ := isScaling_div hfinite hpos
  rw [sampleAt_of_pos hpos]
  exact quantize_of_isNaN (hscaling.undefined x h)

theorem sampleAt_peak (hfinite : p.isFinite = true) (hpos : 0 < p) (h : (x == p) = true) :
    sampleAt p x = 32767 := by
  have hrank := rank_pos hfinite hpos
  rw [eq_of_beq h (by omega), sampleAt_of_pos hpos, div_self hfinite hpos]
  decide

theorem sampleAt_neg_peak (hfinite : p.isFinite = true) (hpos : 0 < p) (h : (x == -p) = true) :
    sampleAt p x = -32768 := by
  have hrank := rank_pos hfinite hpos
  have hneg := rank_neg (defined_of_pos hfinite hpos)
  rw [eq_of_beq h (by omega), sampleAt_of_pos hpos, neg_div_self hfinite hpos]
  decide

end

def Frame (s : Sum) (m : Mixdown) (x : Float) (y : Int16) : Prop :=
  ∃ t : Nat, s.samples[t]? = some x ∧ m.samples[t]? = some y

/-- What a mix makes of a sum at full scale. Only sums that are defined are ordered. -/
structure IsFullScale (s : Sum) (m : Mixdown) : Prop where
  frames : m.samples.size = s.samples.size
  top : ∀ x y, Frame s m x y → (x == s.peak) = true → y = 32767
  bottom : ∀ x y, Frame s m x y → (x == -s.peak) = true → y = -32768
  reached : ∃ x y, Frame s m x y ∧ ((x == s.peak) = true ∨ (x == -s.peak) = true)
  ordered : ∀ x y x' y', Frame s m x y → Frame s m x' y' → x ≤ x' → y ≤ y'
  still : ∀ x y, Frame s m x y → (x == 0) = true ∨ x.isNaN = true → y = 0
  nonneg : ∀ x y, Frame s m x y → 0 ≤ x → 0 ≤ y
  nonpos : ∀ x y, Frame s m x y → x ≤ 0 → y ≤ 0

section

variable (buffers : List Buffer)

theorem frame_iff (x : Float) (y : Int16) : Frame (sum buffers) (ofLines buffers) x y ↔
    x ∈ (sum buffers).samples ∧ y = sampleAt (sum buffers).peak x := by
  simp only [Frame, ofLines_eq, Array.getElem?_map, Array.mem_iff_getElem?]
  constructor
  · rintro ⟨t, hx, hy⟩
    rw [hx] at hy
    exact ⟨⟨t, hx⟩, (Option.some.inj hy).symm⟩
  · rintro ⟨⟨t, hx⟩, rfl⟩
    exact ⟨t, hx, by rw [hx]; rfl⟩

/-- The peak is reached, unless it is zero. -/
theorem sum_reaches_peak (hpos : 0 < (sum buffers).peak) : ∃ x ∈ (sum buffers).samples,
    (x == (sum buffers).peak) = true ∨ (x == -(sum buffers).peak) = true := by
  rcases (sum_isSumOf buffers).peak.attained with ⟨x, hx, hdefined, hpeak⟩ | ⟨hpeak, -⟩
  · rw [hpeak]
    exact ⟨x, Array.mem_toList_iff.mp hx, beq_abs_or_beq_neg_abs hdefined⟩
  · rw [hpeak] at hpos
    exact absurd hpos (by decide)

theorem ofLines_full_scale (hfinite : (sum buffers).peak.isFinite = true)
    (hpos : 0 < (sum buffers).peak) : IsFullScale (sum buffers) (ofLines buffers) := by
  have hzero (x : Float) (h : (x == 0) = true) : sampleAt (sum buffers).peak x = 0 :=
    sampleAt_of_isZero sum_peak_pos x h
  have hsample (x : Float) (y : Int16) (h : Frame (sum buffers) (ofLines buffers) x y) :
      y = sampleAt (sum buffers).peak x := ((frame_iff buffers x y).mp h).2
  constructor
  case frames => rw [ofLines_eq, Array.size_map]
  case top =>
    intro x y h hx
    rw [hsample x y h, sampleAt_peak hfinite hpos hx]
  case bottom =>
    intro x y h hx
    rw [hsample x y h, sampleAt_neg_peak hfinite hpos hx]
  case reached =>
    obtain ⟨x, hx, hpeak⟩ := sum_reaches_peak buffers hpos
    exact ⟨x, _, (frame_iff buffers x _).mpr ⟨hx, rfl⟩, hpeak⟩
  case ordered =>
    intro x y x' y' h h' hle
    rw [hsample x y h, hsample x' y' h']
    exact sampleAt_mono hfinite hpos hle
  case still =>
    intro x y h hx
    rw [hsample x y h]
    exact hx.elim (hzero x) (sampleAt_of_isNaN hfinite hpos)
  case nonneg =>
    intro x y h hx
    rw [hsample x y h, ← hzero 0 rfl]
    exact sampleAt_mono hfinite hpos hx
  case nonpos =>
    intro x y h hx
    rw [hsample x y h, ← hzero 0 rfl]
    exact sampleAt_mono hfinite hpos hx

end

/-- Sums at the peak and at its opposite, between them a smaller one, a zero and an undefined one. -/
theorem ofLines_full_scale_both_ends :
    IsFullScale (sum [#[1, -1, 0.5, 1, 0 / 0], #[2, -2, 1, -1]])
        (ofLines [#[1, -1, 0.5, 1, 0 / 0], #[2, -2, 1, -1]]) ∧
      (ofLines [#[1, -1, 0.5, 1, 0 / 0], #[2, -2, 1, -1]]).samples =
        #[32767, -32768, 16384, 0, 0] :=
  ⟨ofLines_full_scale _ (by decide +kernel) (by decide +kernel), by decide +kernel⟩

theorem sum_peak_isFinite {buffers : List Buffer}
    (h : ∀ x ∈ (sum buffers).samples, x.isInf = false) : (sum buffers).peak.isFinite = true := by
  rcases (sum_isSumOf buffers).peak.attained with ⟨x, hx, hdefined, hpeak⟩ | ⟨hpeak, -⟩
  · have hinf := h x (Array.mem_toList_iff.mp hx)
    have hle := (isNaN_eq_false_iff x).mp hdefined
    rw [Bool.eq_false_iff, ne_eq, isInf_iff] at hinf
    rw [hpeak, isFinite_iff, (abs_parts hdefined).2]
    omega
  · rw [hpeak]
    rfl

/-- An infinite sum makes the peak infinite. -/
theorem sum_peak_of_isInf {buffers : List Buffer} {x : Float} (hx : x ∈ (sum buffers).samples)
    (hinf : x.isInf = true) : (sum buffers).peak = 1 / 0 := by
  have htop := topLevel_le (sum buffers).samples.toList
  have hlevel := topLevel_le_iff.mp (Nat.le_refl _) x (Array.mem_toList_iff.mpr hx)
  have hdefined : x.isNaN = false := by
    rw [isNaN_eq_false_iff, (isInf_iff x).mp hinf]
  rw [level, hdefined, if_neg Bool.false_ne_true, (isInf_iff x).mp hinf] at hlevel
  have hinfinite : (1 / 0 : Float).toBits.toNat = infiniteBits := by decide
  apply toBits_inj.mp
  apply UInt64.toNat_inj.mp
  rw [sum_peak_toBits, hinfinite]
  omega

theorem sampleAt_infinite (x : Float) : sampleAt (1 / 0) x = 0 := by
  have hinfinite : (1 / 0 : Float).toModel.unpack = .infinity .positive := rfl
  have hdiv : x / (1 / 0) = .ofModel (.pack (x.toModel.unpack.div .binary64 (.infinity .positive))) :=
    congrArg (fun u => Float.ofModel (.pack (x.toModel.unpack.div _ u))) hinfinite
  rw [sampleAt_of_pos (by decide), hdiv]
  cases x.toModel.unpack with
  | zero s => exact quantize_of_isZero (isZero_pack _)
  | finite s => exact quantize_of_isZero (isZero_pack _)
  | infinity s => exact quantize_of_isNaN (by cases s <;> rfl)
  | notANumber => exact quantize_of_isNaN rfl

section

variable (buffers : List Buffer)

theorem mem_samples_iff (y : Int16) : y ∈ (ofLines buffers).samples ↔
    ∃ x ∈ (sum buffers).samples, sampleAt (sum buffers).peak x = y := by
  rw [ofLines_eq, Array.mem_map]

theorem samples_eq_zero_of_isInf (h : ∃ x ∈ (sum buffers).samples, x.isInf = true) :
    ∀ y ∈ (ofLines buffers).samples, y = 0 := by
  obtain ⟨x, hx, hinf⟩ := h
  intro y hy
  obtain ⟨x', -, rfl⟩ := (mem_samples_iff buffers y).mp hy
  rw [sum_peak_of_isInf hx hinf, sampleAt_infinite]

theorem isSilent_iff : (ofLines buffers).isSilent = true ↔
    (∀ y ∈ (ofLines buffers).samples, y = 0) ∧
      ∀ x ∈ (sum buffers).samples, x.isInf = false := by
  have hsilent : (ofLines buffers).isSilent = ((sum buffers).peak == 0) := by
    rw [isSilent, ofLines_eq]
  rw [hsilent]
  constructor
  · intro hzero
    refine ⟨fun y hy => ?_, fun x hx => Bool.eq_false_iff.mpr fun hinf => ?_⟩
    · obtain ⟨x, -, rfl⟩ := (mem_samples_iff buffers y).mp hy
      rw [sampleAt, hzero, if_pos rfl]
    · rw [sum_peak_of_isInf hx hinf] at hzero
      cases hzero
  · rintro ⟨hstill, hinf⟩
    by_contra hsound
    rw [Bool.not_eq_true] at hsound
    have hfinite := sum_peak_isFinite hinf
    have hpos := sum_peak_pos hsound
    obtain ⟨x, hx, hpeak⟩ := sum_reaches_peak buffers hpos
    have hsample := hstill _ ((mem_samples_iff buffers _).mpr ⟨x, hx, rfl⟩)
    rcases hpeak with htop | hbottom
    · rw [sampleAt_peak hfinite hpos htop] at hsample
      cases hsample
    · rw [sampleAt_neg_peak hfinite hpos hbottom] at hsample
      cases hsample

/-- A mix without any sound is reported as silent, and with a warning unless it is empty, if no sum
is infinite. An infinite sum takes the sound from all frames, and nothing is reported. -/
theorem silence_reported :
    ((ofLines buffers).isSilent = true ↔ (∀ y ∈ (ofLines buffers).samples, y = 0) ∧
      ∀ x ∈ (sum buffers).samples, x.isInf = false) ∧
    ((ofLines buffers).warnings ≠ [] ↔ 0 < (ofLines buffers).frames ∧
      (∀ y ∈ (ofLines buffers).samples, y = 0) ∧
      ∀ x ∈ (sum buffers).samples, x.isInf = false) ∧
    ((∃ x ∈ (sum buffers).samples, x.isInf = true) →
      ∀ y ∈ (ofLines buffers).samples, y = 0) := by
  refine ⟨isSilent_iff buffers, ?_, samples_eq_zero_of_isInf buffers⟩
  rw [← isSilent_iff, warnings]
  cases hsilent : (ofLines buffers).isSilent
  · simp
  · simp

end

/-- Two finite lines whose sum is infinite. -/
theorem silence_not_reported : ¬ ∀ buffers : List Buffer,
    (∀ b ∈ buffers, ∀ x ∈ b, x.isFinite = true) →
      ((ofLines buffers).isSilent = true ↔ ∀ y ∈ (ofLines buffers).samples, y = 0) := by
  intro h
  have hstill : (ofLines [#[1.7e308], #[1.7e308]]).samples = #[0] := by decide +kernel
  have hloud : (ofLines [#[1.7e308], #[1.7e308]]).isSilent = false := by decide +kernel
  have hsilent := (h [#[1.7e308], #[1.7e308]] (by decide +kernel)).mpr (by simp [hstill])
  rw [hloud] at hsilent
  cases hsilent

end Polyphony.Mixdown
