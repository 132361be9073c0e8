import Mathlib

/-! # The encoding of floats

Without the sign, the bits of a float are ordered like the numbers they stand for. So the order
of unsigned floats is that of natural numbers, and a float cut to a whole number keeps it.
-/
namespace Polyphony.Number
open Float.Model UnpackedFloat

/-- The bits of an infinite float without its sign. Above them there are only undefined ones. -/
def infiniteBits : Nat := 2047 * 2 ^ 52

def magnitude (x : Float) : Nat := x.toBits.toNat % 2 ^ 63

def sign (x : Float) : Sign :=
  Sign.ofBitVec (@unpackSign Format.binary64 x.toBits.toBitVec)

/-- How bits without a sign stand for a number. A mantissa that is not full belongs to the least
exponent, so that its bits run on into those of the full ones. -/
inductive Encodes (s : Sign) : Nat → UnpackedFloat → Prop
  | zero : Encodes s 0 (.zero s)
  | finite {m e : Nat} (h : 0 < m) : m < 2 ^ 53 → e = 0 ∨ 2 ^ 52 ≤ m → e ≤ 2045 →
      Encodes s (e * 2 ^ 52 + m) (.finite s m (e - 1074) h)
  | infinite : Encodes s infiniteBits (.infinity s)
  | undefined {n : Nat} : infiniteBits < n → Encodes s n .notANumber

theorem Encodes.ofFinite {s : Sign} {m e n : Nat} {i : Int} (h : 0 < m) (hm : m < 2 ^ 53)
    (hfull : e = 0 ∨ 2 ^ 52 ≤ m) (he : e ≤ 2045) (hn : n = e * 2 ^ 52 + m)
    (hi : i = e - 1074) : Encodes s n (.finite s m i h) := by
  subst hn hi
  exact .finite h hm hfull he

section

variable (b : BitVec Format.binary64.numBits)

theorem toNat_unpackExponent : (unpackExponent b).toNat = b.toNat / 2 ^ 52 % 2 ^ 11 := by
  simp [unpackExponent, Nat.shiftRight_eq_div_pow]

theorem toNat_unpackMantissa : (unpackMantissa b).toNat = b.toNat % 2 ^ 52 := by
  simp [unpackMantissa]

theorem toNat_unpackSign : (unpackSign b).toNat = b.toNat / 2 ^ 63 % 2 := by
  simp [unpackSign, Nat.shiftRight_eq_div_pow]

theorem toNat_full (m : BitVec 52) : (1#1 ++ m).toNat = 2 ^ 52 + m.toNat := by
  rw [BitVec.toNat_append, ← Nat.shiftLeft_add_eq_or_of_lt m.isLt]
  rfl

theorem encodes_unpack : Encodes (Sign.ofBitVec (unpackSign b)) (b.toNat % 2 ^ 63)
    (UnpackedFloat.unpack Format.binary64 b) := by
  have hexponent := toNat_unpackExponent b
  have hmantissa := toNat_unpackMantissa b
  have hbits : b.toNat % 2 ^ 63 =
      (unpackExponent b).toNat * 2 ^ 52 + (unpackMantissa b).toNat := by omega
  have hbias : (Format.binary64.exponentBias : Int) +
      Format.binary64.mantissaBitsWithoutImplicit = 1075 := rfl
  have hnone : unpackMantissa b = 0#_ ↔ (unpackMantissa b).toNat = 0 := BitVec.toNat_inj.symm
  have hleast : unpackExponent b = 0#_ ↔ (unpackExponent b).toNat = 0 := BitVec.toNat_inj.symm
  have htop : unpackExponent b = -1#_ ↔ (unpackExponent b).toNat = 2047 := BitVec.toNat_inj.symm
  unfold UnpackedFloat.unpack
  dsimp only
  rw [hbits, hbias]
  by_cases he : unpackExponent b = -1#_
  · rw [if_pos he, htop.mp he]
    by_cases hm : unpackMantissa b = 0#_
    · rw [if_pos hm, hnone.mp hm]
      exact .infinite
    · rw [if_neg hm]
      rw [hnone] at hm
      exact .undefined (by unfold infiniteBits; omega)
  · rw [if_neg he]
    by_cases he' : unpackExponent b = 0#_
    · rw [if_pos he', hleast.mp he']
      by_cases hm : unpackMantissa b = 0#_
      · rw [dif_pos hm, hnone.mp hm]
        exact .zero
      · rw [dif_neg hm]
        exact .ofFinite (e := 0) _ (by omega) (.inl rfl) (by decide) rfl rfl
    · rw [if_neg he']
      rw [htop] at he
      rw [hleast] at he'
      have hfull : (1#1 ++ unpackMantissa b).toNat = 2 ^ 52 + (unpackMantissa b).toNat :=
        toNat_full _
      exact .ofFinite (e := (unpackExponent b).toNat - 1) _ (by omega) (.inr (by omega)) (by omega)
        (by omega) (by omega)

end

theorem encodes (x : Float) : Encodes (sign x) (magnitude x) x.toModel.unpack :=
  encodes_unpack x.toBits.toBitVec

theorem toNat_packComponents (s : Sign) (e : BitVec 11) (m : BitVec 52) :
    (packComponents Format.binary64 s e m).toNat =
      s.toBitVec.toNat * 2 ^ 63 + e.toNat * 2 ^ 52 + m.toNat := by
  unfold packComponents
  rw [BitVec.toNat_append, BitVec.toNat_append, ← Nat.shiftLeft_add_eq_or_of_lt m.isLt,
    ← Nat.shiftLeft_add_eq_or_of_lt e.isLt, Nat.shiftLeft_eq, Nat.shiftLeft_eq]
  omega

/-- The bits of a float are its sign and those that encode it. -/
theorem Encodes.toNat_pack {s : Sign} {n : Nat} {u : UnpackedFloat} (h : Encodes s n u)
    (hn : n ≤ infiniteBits) :
    (UnpackedFloat.pack Format.binary64 u).toNat = s.toBitVec.toNat * 2 ^ 63 + n := by
  cases h with
  | zero => cases s <;> rfl
  | infinite => cases s <;> rfl
  | undefined h => omega
  | @finite m e h hm hfull he =>
    have hbias : (e - 1074 + Format.binary64.exponentBias +
        Format.binary64.mantissaBitsWithoutImplicit : Int).toNat = e + 1 := by
      change (e - 1074 + 1023 + 52 : Int).toNat = e + 1
      omega
    have hbits : Format.binary64.mantissaBits = 53 := rfl
    have hlow := Nat.le_log2 (k := 52) (Nat.ne_of_gt h)
    have hhigh := Nat.log2_lt (k := 53) (Nat.ne_of_gt h)
    unfold UnpackedFloat.pack
    simp only [hbias, hbits]
    rw [if_neg (by omega)]
    by_cases hm' : 2 ^ 52 ≤ m
    · rw [if_pos (by omega), toNat_packComponents, BitVec.toNat_ofNat, BitVec.toNat_ofNat]
      omega
    · rw [if_neg (by omega), toNat_packComponents, BitVec.toNat_ofNat, BitVec.toNat_ofNat]
      omega

theorem Encodes.isNaN_iff {s : Sign} {n : Nat} {u : UnpackedFloat} (h : Encodes s n u) :
    u.isNaN = true ↔ infiniteBits < n := by
  cases h with
  | zero => simp [UnpackedFloat.isNaN]
  | finite h hm =>
    simp only [UnpackedFloat.isNaN, Bool.false_eq_true, false_iff, infiniteBits]
    omega
  | infinite => simp [UnpackedFloat.isNaN]
  | undefined h => simpa [UnpackedFloat.isNaN] using h

theorem isNaN_iff (x : Float) : x.isNaN = true ↔ infiniteBits < magnitude x :=
  (encodes x).isNaN_iff

theorem isNaN_eq_false_iff (x : Float) : x.isNaN = false ↔ magnitude x ≤ infiniteBits := by
  rw [← Bool.not_eq_true, isNaN_iff, Nat.not_lt]

theorem defined_of_toBits_le {x : Float} (h : x.toBits.toNat ≤ infiniteBits) : x.isNaN = false := by
  have htop : infiniteBits = 2047 * 2 ^ 52 := rfl
  rw [isNaN_eq_false_iff, magnitude]
  omega

theorem Encodes.abs {s : Sign} {n : Nat} {u : UnpackedFloat} (h : Encodes s n u) :
    Encodes .positive n u.abs := by
  cases h with
  | zero => exact .zero
  | finite h hm hfull he => exact .finite h hm hfull he
  | infinite => exact .infinite
  | undefined h => exact .undefined h

theorem abs_toBits {x : Float} (h : x.isNaN = false) : x.abs.toBits.toNat = magnitude x := by
  have hpack := (encodes x).abs.toNat_pack ((isNaN_eq_false_iff x).mp h)
  rwa [show Sign.positive.toBitVec.toNat = 0 from rfl, Nat.zero_mul, Nat.zero_add] at hpack

theorem toBits_inj {x y : Float} : x.toBits = y.toBits ↔ x = y := by
  rcases x with ⟨⟨_, _⟩⟩
  rcases y with ⟨⟨_, _⟩⟩
  simp [Float.toBits]

theorem toBits_zero : (0 : Float).toBits.toNat = 0 := by decide

/-- Exponents are compared first. As only the least exponent has mantissas that are not full, this
is the order of the bits. -/
theorem finite_compare {m m' e e' : Nat} (hm : m < 2 ^ 53) (hm' : m' < 2 ^ 53)
    (hfull : e = 0 ∨ 2 ^ 52 ≤ m) (hfull' : e' = 0 ∨ 2 ^ 52 ≤ m') :
    (compare (e - 1074 : Int) (e' - 1074)).then (compare m m') =
      compare (e * 2 ^ 52 + m) (e' * 2 ^ 52 + m') := by
  cases hc : compare (e * 2 ^ 52 + m) (e' * 2 ^ 52 + m') with
  | lt =>
    rw [Nat.compare_eq_lt] at hc
    rw [Ordering.then_eq_lt, Int.compare_eq_lt, Int.compare_eq_eq, Nat.compare_eq_lt]
    omega
  | eq =>
    rw [Nat.compare_eq_eq] at hc
    rw [Ordering.then_eq_eq, Int.compare_eq_eq, Nat.compare_eq_eq]
    omega
  | gt =>
    rw [Nat.compare_eq_gt] at hc
    rw [Ordering.then_eq_gt, Int.compare_eq_gt, Int.compare_eq_eq, Nat.compare_eq_gt]
    omega

/-- Unsigned floats are ordered like the bits that encode them. -/
theorem Encodes.compare_eq {n n' : Nat} {u u' : UnpackedFloat} (h : Encodes .positive n u)
    (h' : Encodes .positive n' u') (hn : n ≤ infiniteBits) (hn' : n' ≤ infiniteBits) :
    u.compare u' = some (compare n n') := by
  have hlt {k l : Nat} (hkl : k < l) : some Ordering.lt = some (compare k l) := by
    rw [Nat.compare_eq_lt.mpr hkl]
  have hgt {k l : Nat} (hkl : l < k) : some Ordering.gt = some (compare k l) := by
    rw [Nat.compare_eq_gt.mpr hkl]
  have htop : infiniteBits = 2047 * 2 ^ 52 := rfl
  cases h with
  | zero =>
    cases h' with
    | zero => rfl
    | finite h' => exact hlt (by omega)
    | infinite => exact hlt (by decide)
    | undefined h' => omega
  | finite h hm hfull he =>
    cases h' with
    | zero => exact hgt (by omega)
    | finite h' hm' hfull' he' => exact congrArg some (finite_compare hm hm' hfull hfull')
    | infinite => exact hlt (by omega)
    | undefined h' => omega
  | infinite =>
    cases h' with
    | zero => exact hgt (by decide)
    | finite h' hm' hfull' he' => exact hgt (by omega)
    | infinite => rfl
    | undefined h' => omega
  | undefined h => omega

/-- The sign of a float is its first bit. -/
theorem toNat_sign (x : Float) : (sign x).toBitVec.toNat = x.toBits.toNat / 2 ^ 63 := by
  have hlt := x.toBits.toNat_lt
  have hbit (v : BitVec 1) : (Sign.ofBitVec v).toBitVec = v := by
    revert v
    decide
  rw [sign, hbit, toNat_unpackSign, UInt64.toNat_toBitVec]
  omega

theorem sign_eq_positive {x : Float} (h : x.toBits.toNat < 2 ^ 63) : sign x = .positive := by
  have hsign := toNat_sign x
  rw [Nat.div_eq_of_lt h] at hsign
  cases hs : sign x with
  | positive => rfl
  | negative =>
    rw [hs] at hsign
    cases hsign

section

variable {x y : Float}

theorem encodes_unsigned (h : x.toBits.toNat ≤ infiniteBits) :
    Encodes .positive x.toBits.toNat x.toModel.unpack := by
  have htop : infiniteBits = 2047 * 2 ^ 52 := rfl
  have hx := encodes x
  rwa [sign_eq_positive (by omega), magnitude, Nat.mod_eq_of_lt (by omega)] at hx

theorem lt_iff_compare : x < y ↔ x.toModel.unpack.compare y.toModel.unpack = some .lt := by
  have hlt : x < y ↔ x.toModel.unpack.lt y.toModel.unpack = true := decide_eq_true_iff
  rw [hlt, UnpackedFloat.lt, beq_iff_eq]

theorem le_iff_compare :
    x ≤ y ↔ (x.toModel.unpack.compare y.toModel.unpack).any Ordering.isLE = true :=
  decide_eq_true_iff

theorem beq_iff_compare :
    (x == y) = true ↔ x.toModel.unpack.compare y.toModel.unpack = some .eq := by
  have hbeq : (x == y) = x.toModel.unpack.beq y.toModel.unpack := rfl
  rw [hbeq, UnpackedFloat.beq, beq_iff_eq]

theorem lt_iff (hx : x.toBits.toNat ≤ infiniteBits) (hy : y.toBits.toNat ≤ infiniteBits) :
    x < y ↔ x.toBits.toNat < y.toBits.toNat := by
  rw [lt_iff_compare, (encodes_unsigned hx).compare_eq (encodes_unsigned hy) hx hy,
    Option.some_inj, Nat.compare_eq_lt]

theorem le_iff (hx : x.toBits.toNat ≤ infiniteBits) (hy : y.toBits.toNat ≤ infiniteBits) :
    x ≤ y ↔ x.toBits.toNat ≤ y.toBits.toNat := by
  rw [le_iff_compare, (encodes_unsigned hx).compare_eq (encodes_unsigned hy) hx hy,
    Option.any_some, Nat.isLE_compare]

theorem nonneg_of_toBits_le (h : x.toBits.toNat ≤ infiniteBits) : 0 ≤ x := by
  rw [le_iff (by simp [toBits_zero]) h, toBits_zero]
  exact Nat.zero_le _

end

theorem unpack_eq_of_isNaN {x : Float} (h : x.isNaN = true) : x.toModel.unpack = .notANumber := by
  change x.toModel.unpack.isNaN = true at h
  cases hx : x.toModel.unpack with
  | notANumber => rfl
  | _ =>
    rw [hx] at h
    cases h

theorem compare_notANumber (u : UnpackedFloat) : u.compare .notANumber = none := by
  cases u with
  | infinity s => cases s <;> rfl
  | _ => rfl

/-- An undefined float is not above any other. -/
theorem not_lt_of_isNaN {x y : Float} (h : y.isNaN = true) : ¬ x < y := by
  rw [lt_iff_compare, unpack_eq_of_isNaN h, compare_notANumber]
  exact nofun

theorem abs_isNaN (x : Float) : x.abs.isNaN = x.isNaN := by
  by_cases h : x.isNaN = true
  · have habs : x.abs = .ofModel (.pack .notANumber) :=
      congrArg (fun u : UnpackedFloat => Float.ofModel (.pack u.abs)) (unpack_eq_of_isNaN h)
    rw [habs, h]
    rfl
  · rw [Bool.not_eq_true] at h
    have hx := (isNaN_eq_false_iff x).mp h
    have htop : infiniteBits = 2047 * 2 ^ 52 := rfl
    rw [h, isNaN_eq_false_iff, magnitude, abs_toBits h]
    omega

theorem mantissa_shiftRight (em : ExtendedMantissa) (k : Nat) :
    (em >>> k).mantissa = em.mantissa / 2 ^ k := by
  induction k with
  | zero => simp [HShiftRight.hShiftRight, Nat.repeat]
  | succ k ih =>
    change (em >>> k).mantissa / 2 = em.mantissa / 2 ^ (k + 1)
    rw [ih, Nat.div_div_eq_div_mul, Nat.pow_succ]

theorem mul_two_pow_div {k l e d : Nat} (h : k + d = e + l) (m : Nat) :
    m * 2 ^ k / 2 ^ l = m * 2 ^ e / 2 ^ d := by
  calc m * 2 ^ k / 2 ^ l = m * 2 ^ k * 2 ^ d / (2 ^ l * 2 ^ d) :=
        (Nat.mul_div_mul_right _ _ (Nat.two_pow_pos d)).symm
    _ = m * 2 ^ e * 2 ^ l / (2 ^ d * 2 ^ l) := by
      simp only [Nat.mul_assoc, ← Nat.pow_add, h, Nat.add_comm l]
    _ = m * 2 ^ e / 2 ^ d := Nat.mul_div_mul_right _ _ (Nat.two_pow_pos l)

theorem roundToInt_positive (m e d : Nat) :
    roundToInt .positive m (e - d) = (m * 2 ^ e / 2 ^ d : Nat) := by
  have hshift := mul_two_pow_div (k := (e - d - 0 : Int).toNat)
    (l := (0 - (e - d - (e - d - 0 : Int).toNat) : Int).toNat) (e := e) (d := d) (by omega) m
  simp only [roundToInt, decreaseExponent, shiftToExponent, mantissa_shiftRight]
  rw [← hshift]
  simp [Sign.apply, ExtendedMantissa.ofMantissaAndAccuracy, Nat.shiftLeft_eq]

/-- The bits of two floats are in the order of their numbers. -/
theorem mul_two_pow_le {m m' e e' : Nat} (hm : m < 2 ^ 53) (hm' : m' < 2 ^ 53)
    (hfull : e = 0 ∨ 2 ^ 52 ≤ m) (hfull' : e' = 0 ∨ 2 ^ 52 ≤ m')
    (hle : e * 2 ^ 52 + m ≤ e' * 2 ^ 52 + m') : m * 2 ^ e ≤ m' * 2 ^ e' := by
  by_cases he : e = e'
  · subst he
    exact Nat.mul_le_mul_right _ (by omega)
  · obtain ⟨k, rfl⟩ : ∃ k, e' = e + 1 + k := ⟨e' - (e + 1), by omega⟩
    have hdouble : m ≤ m' * 2 := by omega
    calc m * 2 ^ e ≤ m' * 2 * 2 ^ e := Nat.mul_le_mul_right _ hdouble
      _ = m' * 2 ^ (e + 1) := by rw [Nat.pow_succ, Nat.mul_assoc, Nat.mul_comm 2]
      _ ≤ m' * 2 ^ (e + 1 + k) :=
        Nat.mul_le_mul_left _ (Nat.pow_le_pow_right (by decide) (by omega))

theorem ofNatClamp_le {a b : Nat} (h : a ≤ b) : UInt64.ofNatClamp a ≤ UInt64.ofNatClamp b := by
  have hsize : UInt64.size = 2 ^ 64 := rfl
  have hclamp (n : Nat) : (UInt64.ofNatClamp n).toNat = min n (2 ^ 64 - 1) := by
    by_cases hn : n < UInt64.size
    · simp only [UInt64.ofNatClamp, dif_pos hn, UInt64.toNat_ofNatLT]
      omega
    · simp only [UInt64.ofNatClamp, dif_neg hn, UInt64.toNat_ofNatLT]
      omega
  rw [UInt64.le_iff_toNat_le, hclamp, hclamp]
  omega

theorem le_toUInt64_infinity (w : UInt64) : w ≤ (infinity .positive).toUInt64 := by
  have hlt := w.toNat_lt
  have hmax : (infinity .positive).toUInt64.toNat = 2 ^ 64 - 1 := rfl
  rw [UInt64.le_iff_toNat_le, hmax]
  omega

theorem Encodes.toUInt64_of_negative {n : Nat} {u : UnpackedFloat} (h : Encodes .negative n u) :
    u.toUInt64 = 0 := by
  cases h with
  | zero => rfl
  | finite h =>
    simp only [UnpackedFloat.toUInt64, UnpackedFloat.toInt, roundToInt, Sign.apply]
    rw [Int.toNat_of_nonpos (by omega)]
    rfl
  | infinite => rfl
  | undefined h => rfl

theorem Encodes.toUInt64_le {n n' : Nat} {u u' : UnpackedFloat} (h : Encodes .positive n u)
    (h' : Encodes .positive n' u') (hle : n ≤ n') (hn' : n' ≤ infiniteBits) :
    u.toUInt64 ≤ u'.toUInt64 := by
  have htop : infiniteBits = 2047 * 2 ^ 52 := rfl
  cases h with
  | zero => exact UInt64.zero_le
  | finite h hm hfull he =>
    cases h' with
    | zero => omega
    | finite h' hm' hfull' he' =>
      have hpow := mul_two_pow_le hm hm' hfull hfull' hle
      have hcut (m e : Nat) : roundToInt .positive m (e - 1074) = (m * 2 ^ e / 2 ^ 1074 : Nat) :=
        roundToInt_positive m e 1074
      simp only [UnpackedFloat.toUInt64, UnpackedFloat.toInt, hcut]
      exact ofNatClamp_le (Nat.div_le_div_right hpow)
    | infinite => exact le_toUInt64_infinity _
    | undefined h' => omega
  | infinite =>
    cases h' with
    | zero => omega
    | finite h' hm' hfull' he' => omega
    | infinite => exact UInt64.le_refl _
    | undefined h' => omega
  | undefined h => omega

/-- Cutting keeps the order. -/
theorem toUInt64_le {x y : Float} (hy : y.toBits.toNat ≤ infiniteBits) (h : x ≤ y) :
    x.toUInt64 ≤ y.toUInt64 := by
  have hx := encodes x
  rw [le_iff_compare] at h
  cases hs : sign x with
  | negative =>
    rw [hs] at hx
    have hzero : x.toUInt64 = 0 := hx.toUInt64_of_negative
    rw [hzero]
    exact UInt64.zero_le
  | positive =>
    rw [hs] at hx
    by_cases hnan : x.isNaN = true
    · rw [unpack_eq_of_isNaN hnan] at h
      cases h
    · rw [Bool.not_eq_true, isNaN_eq_false_iff] at hnan
      have hy' := encodes_unsigned hy
      rw [hx.compare_eq hy' hnan hy, Option.any_some, Nat.isLE_compare] at h
      exact hx.toUInt64_le hy' h hy

end Polyphony.Number
