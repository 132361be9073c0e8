import Polyphony.Number.Decimal
import Polyphony.Proofs.Number.Encoding

/-! # Rounding

A quotient is rounded to a float by cutting it at an exponent and going to the nearest whole
mantissa. The bits of the float depend on the quotient alone and grow with it. Products and
quotients of floats are rounded in this way.
-/
namespace Polyphony.Number
open Float.Model UnpackedFloat

/-- A quotient cut to a whole number, with the bit behind it and whether anything is left. -/
def cut (a b : Nat) : ExtendedMantissa :=
  ⟨a / b, decide (2 * a / b % 2 = 1), decide (2 * a % b ≠ 0)⟩

section

variable {a b a' b' : Nat}

/-- Where a quotient lies between two whole numbers. -/
theorem double_div (a : Nat) (hb : 0 < b) :
    (2 * (a % b) < b ∧ 2 * a / b = 2 * (a / b) ∧ 2 * a % b = 2 * (a % b)) ∨
      b ≤ 2 * (a % b) ∧ 2 * a / b = 2 * (a / b) + 1 ∧ 2 * a % b = 2 * (a % b) - b := by
  have hsplit : 2 * a = b * (2 * (a / b)) + 2 * (a % b) := by
    have := Nat.div_add_mod a b
    linarith
  have hlt := Nat.mod_lt a hb
  by_cases hlow : 2 * (a % b) < b
  · refine .inl ⟨hlow, ?_, ?_⟩
    · rw [hsplit, Nat.mul_add_div hb, Nat.div_eq_of_lt hlow, Nat.add_zero]
    · rw [hsplit, Nat.mul_add_mod, Nat.mod_eq_of_lt hlow]
  · have hone : 2 * (a % b) / b = 1 := Nat.div_eq_of_lt_le (by omega) (by omega)
    refine .inr ⟨by omega, ?_, ?_⟩
    · rw [hsplit, Nat.mul_add_div hb, hone]
    · rw [hsplit, Nat.mul_add_mod, Nat.mod_eq_sub_mod (by omega), Nat.mod_eq_of_lt (by omega)]

theorem roundQuotient_cases (a b : Nat) :
    2 * (a % b) < b ∧ roundQuotient a b = a / b ∨
      2 * (a % b) = b ∧ roundQuotient a b = a / b + a / b % 2 ∨
      b < 2 * (a % b) ∧ roundQuotient a b = a / b + 1 := by
  simp only [roundQuotient]
  rcases Nat.lt_trichotomy (2 * (a % b)) b with hlow | hhalf | hhigh
  · exact .inl ⟨hlow, if_pos hlow⟩
  · refine .inr (.inl ⟨hhalf, ?_⟩)
    rw [if_neg (by omega), if_neg (by omega)]
    split
    · omega
    · omega
  · refine .inr (.inr ⟨hhigh, ?_⟩)
    rw [if_neg (by omega), if_pos hhigh]

/-- What has been cut off tells the nearest whole number. -/
theorem roundedMantissa_cut (a : Nat) (hb : 0 < b) :
    (cut a b).roundedMantissa = roundQuotient a b := by
  rw [cut]
  rcases double_div a hb with ⟨hlow, hdiv, hmod⟩ | ⟨hhigh, hdiv, hmod⟩
  · have hround : roundQuotient a b = a / b := by
      have := roundQuotient_cases a b
      omega
    rw [hdiv, hmod, hround, Nat.mul_mod_right]
    by_cases hzero : 2 * (a % b) = 0
    · simp [hzero, ExtendedMantissa.roundedMantissa, ExtendedMantissa.accuracy,
        Accuracy.roundToNearestEven]
    · simp [hzero, ExtendedMantissa.roundedMantissa, ExtendedMantissa.accuracy,
        Accuracy.roundToNearestEven]
  · rw [hdiv, hmod, Nat.mul_add_mod]
    rcases roundQuotient_cases a b with ⟨hlow, -⟩ | ⟨hhalf, hround⟩ | ⟨habove, hround⟩
    · omega
    · simp [hhalf, hround, ExtendedMantissa.roundedMantissa, ExtendedMantissa.accuracy,
        Accuracy.roundToNearestEven]
    · have hrest : 2 * (a % b) - b ≠ 0 := by omega
      simp [hrest, hround, ExtendedMantissa.roundedMantissa, ExtendedMantissa.accuracy,
        Accuracy.roundToNearestEven]

theorem roundQuotient_bounds (a b : Nat) :
    a / b ≤ roundQuotient a b ∧ roundQuotient a b ≤ a / b + 1 := by
  have := roundQuotient_cases a b
  omega

/-- A quotient is rounded above `n` if it lies above `n + 1/2`, or there if `n` is odd. -/
theorem lt_roundQuotient_iff (hb : 0 < b) (n : Nat) : n < roundQuotient a b ↔
    (2 * n + 1) * b < 2 * a ∨ (2 * n + 1) * b = 2 * a ∧ n % 2 = 1 := by
  have hsplit : 2 * a = 2 * (a / b) * b + 2 * (a % b) := by
    have := Nat.div_add_mod a b
    linarith
  have hlt := Nat.mod_lt a hb
  have hround := roundQuotient_cases a b
  rw [hsplit]
  rcases Nat.lt_trichotomy n (a / b) with hn | rfl | hn
  · have hle : (2 * n + 1 + 1) * b ≤ 2 * (a / b) * b := Nat.mul_le_mul_right b (by omega)
    rw [Nat.add_mul (2 * n + 1)] at hle
    omega
  · rw [Nat.add_mul]
    omega
  · have hle : (2 * (a / b) + 2 + 1) * b ≤ (2 * n + 1) * b := Nat.mul_le_mul_right b (by omega)
    rw [Nat.add_mul, Nat.add_mul (2 * (a / b))] at hle
    omega

theorem roundQuotient_mono (hb : 0 < b) (hb' : 0 < b') (h : a * b' ≤ a' * b) :
    roundQuotient a b ≤ roundQuotient a' b' := by
  refine le_of_forall_lt fun n hn => ?_
  rw [lt_roundQuotient_iff hb] at hn
  rw [lt_roundQuotient_iff hb']
  have hcross : 2 * a * b' ≤ 2 * a' * b := by
    rw [Nat.mul_assoc, Nat.mul_assoc]
    exact Nat.mul_le_mul_left 2 h
  rcases hn with habove | ⟨hhalf, hodd⟩
  · have hlt : (2 * n + 1) * b' * b < 2 * a' * b := by
      calc (2 * n + 1) * b' * b = (2 * n + 1) * b * b' := Nat.mul_right_comm _ _ _
        _ < 2 * a * b' := Nat.mul_lt_mul_of_pos_right habove hb'
        _ ≤ 2 * a' * b := hcross
    exact .inl (Nat.lt_of_mul_lt_mul_right hlt)
  · have hle : (2 * n + 1) * b' * b ≤ 2 * a' * b := by
      calc (2 * n + 1) * b' * b = (2 * n + 1) * b * b' := Nat.mul_right_comm _ _ _
        _ = 2 * a * b' := by rw [hhalf]
        _ ≤ 2 * a' * b := hcross
    have := Nat.le_of_mul_le_mul_right hle hb
    omega

theorem cut_congr (hb : 0 < b) (hb' : 0 < b') (h : a * b' = a' * b) : cut a b = cut a' b' := by
  have hscale (n : Nat) : n / b = n * b' / (b * b') := (Nat.mul_div_mul_right n b hb').symm
  have hscale' (n : Nat) : n / b' = n * b / (b * b') := by
    rw [Nat.mul_comm b b']
    exact (Nat.mul_div_mul_right n b' hb).symm
  have hrest : 2 * a % b * b' = 2 * a' % b' * b := by
    rw [← Nat.mul_mod_mul_right, ← Nat.mul_mod_mul_right, Nat.mul_assoc, Nat.mul_assoc, h,
      Nat.mul_comm b b']
  have hleft : 2 * a % b = 0 ↔ 2 * a' % b' = 0 := by
    constructor
    · intro hzero
      rw [hzero, Nat.zero_mul] at hrest
      exact (Nat.mul_eq_zero.mp hrest.symm).resolve_right (by omega)
    · intro hzero
      rw [hzero, Nat.zero_mul] at hrest
      exact (Nat.mul_eq_zero.mp hrest).resolve_right (by omega)
  rw [cut, cut, hscale a, hscale (2 * a), hscale' a', hscale' (2 * a'), Nat.mul_assoc,
    Nat.mul_assoc, h]
  simp only [ne_eq, hleft]

end

theorem cut_shiftRightOne (a : Nat) {b : Nat} (hb : 0 < b) :
    (cut a b).shiftRightOne = cut a (b * 2) := by
  have hdouble : 2 * a / (b * 2) = a / b := by rw [Nat.mul_comm b, Nat.mul_div_mul_left _ _ two_pos]
  have hrest : 2 * a % (b * 2) = 2 * a % b + b * (2 * a / b % 2) := Nat.mod_mul
  have hleft : 2 * a % (b * 2) = 0 ↔ 2 * a / b % 2 = 0 ∧ 2 * a % b = 0 := by
    rw [hrest, Nat.add_eq_zero_iff, Nat.mul_eq_zero]
    omega
  rw [ExtendedMantissa.shiftRightOne, cut, cut, Nat.div_div_eq_div_mul, hdouble]
  congr 1
  · rw [bne, Bool.eq_iff_iff]
    simp
  · rw [Bool.eq_iff_iff]
    simp only [Bool.or_eq_true, decide_eq_true_eq, ne_eq, hleft]
    omega

/-- A shift drops bits, but what they were is not forgotten. -/
theorem cut_shiftRight (a : Nat) {b : Nat} (hb : 0 < b) (k : Nat) :
    cut a b >>> k = cut a (b * 2 ^ k) := by
  induction k with
  | zero => rw [Nat.pow_zero, Nat.mul_one]; rfl
  | succ k ih =>
    have hstep : cut a b >>> (k + 1) = (cut a b >>> k).shiftRightOne := rfl
    rw [hstep, ih, cut_shiftRightOne a (Nat.mul_pos hb (Nat.two_pow_pos k)), Nat.mul_assoc,
      Nat.pow_succ]

/-- The form in which a quotient is handed on to be rounded. -/
theorem ofMantissaAndAccuracy_fraction (a : Nat) {b : Nat} (hb : 0 < b) :
    ExtendedMantissa.ofMantissaAndAccuracy (a / b) (accuracyOfFraction (a % b) b) = cut a b := by
  rw [cut, accuracyOfFraction]
  rcases double_div a hb with ⟨hlow, hdiv, hmod⟩ | ⟨hhigh, hdiv, hmod⟩
  · rw [hdiv, hmod, Nat.compare_eq_lt.mpr hlow]
    by_cases hzero : a % b = 0
    · simp [hzero, ExtendedMantissa.ofMantissaAndAccuracy]
    · simp [hzero, ExtendedMantissa.ofMantissaAndAccuracy]
  · have hzero : a % b ≠ 0 := by omega
    rw [hdiv, hmod, if_neg hzero]
    by_cases hhalf : 2 * (a % b) = b
    · rw [Nat.compare_eq_eq.mpr hhalf]
      simp [hhalf, ExtendedMantissa.ofMantissaAndAccuracy]
    · have hrest : 2 * (a % b) - b ≠ 0 := by omega
      rw [Nat.compare_eq_gt.mpr (by omega)]
      simp [hrest, ExtendedMantissa.ofMantissaAndAccuracy]

theorem ofMantissaAndAccuracy_exact (a : Nat) :
    ExtendedMantissa.ofMantissaAndAccuracy a .exact = cut a 1 := by
  have hfraction := ofMantissaAndAccuracy_fraction a Nat.one_pos
  rwa [Nat.div_one, Nat.mod_one] at hfraction

/-- How a quotient, counted in the least unit, is rounded to the bits of a float: at the exponent
where its whole part fills a mantissa, or at the least exponent. -/
inductive Rounds (a b : Nat) : Nat → Prop
  | at (e : Nat) : a / (b * 2 ^ e) < 2 ^ 53 → e = 0 ∨ 2 ^ 52 ≤ a / (b * 2 ^ e) →
    Rounds a b (e * 2 ^ 52 + roundQuotient a (b * 2 ^ e))

namespace Rounds

variable {a b a' b' n n' : Nat}

/-- The bits grow with the quotient. Between two exponents this is so as no mantissa is rounded
above the least one of the next exponent. -/
theorem mono (h : Rounds a b n) (h' : Rounds a' b' n') (hb : 0 < b) (hb' : 0 < b')
    (hle : a * b' ≤ a' * b) : n ≤ n' := by
  rcases h with ⟨e, hlt, hfull⟩
  rcases h' with ⟨e', hlt', hfull'⟩
  have hpos (e : Nat) : 0 < b * 2 ^ e := Nat.mul_pos hb (Nat.two_pow_pos e)
  have hpos' (e : Nat) : 0 < b' * 2 ^ e := Nat.mul_pos hb' (Nat.two_pow_pos e)
  rcases Nat.lt_trichotomy e e' with hee | rfl | hee
  · have hup := (roundQuotient_bounds a (b * 2 ^ e)).2
    have hdown := (roundQuotient_bounds a' (b' * 2 ^ e')).1
    omega
  · refine Nat.add_le_add_left (roundQuotient_mono (hpos e) (hpos' e) ?_) _
    calc a * (b' * 2 ^ e) = a * b' * 2 ^ e := (Nat.mul_assoc ..).symm
      _ ≤ a' * b * 2 ^ e := Nat.mul_le_mul_right _ hle
      _ = a' * (b * 2 ^ e) := Nat.mul_assoc ..
  · exfalso
    have hlow : 2 ^ 52 * (b * 2 ^ e) ≤ a := by
      rw [← Nat.le_div_iff_mul_le (hpos e)]
      omega
    have hhigh : a' < 2 ^ 53 * (b' * 2 ^ e') := (Nat.div_lt_iff_lt_mul (hpos' e')).mp hlt'
    obtain ⟨k, rfl⟩ : ∃ k, e = e' + 1 + k := ⟨e - (e' + 1), by omega⟩
    have hpow : 2 ^ 53 * (b' * 2 ^ e') ≤ 2 ^ 52 * (b' * 2 ^ (e' + 1 + k)) := by
      calc 2 ^ 53 * (b' * 2 ^ e') ≤ 2 ^ 53 * (b' * 2 ^ e') * 2 ^ k :=
            Nat.le_mul_of_pos_right _ (Nat.two_pow_pos k)
        _ = 2 ^ 52 * (b' * 2 ^ (e' + 1 + k)) := by ring
    have hcross : 2 ^ 52 * (b' * 2 ^ (e' + 1 + k)) * b ≤ a * b' := by
      calc 2 ^ 52 * (b' * 2 ^ (e' + 1 + k)) * b = 2 ^ 52 * (b * 2 ^ (e' + 1 + k)) * b' := by ring
        _ ≤ a * b' := Nat.mul_le_mul_right b' hlow
    have hcontra : a' * b < a' * b := by
      calc a' * b < 2 ^ 53 * (b' * 2 ^ e') * b := Nat.mul_lt_mul_of_pos_right hhigh hb
        _ ≤ 2 ^ 52 * (b' * 2 ^ (e' + 1 + k)) * b := Nat.mul_le_mul_right b hpow
        _ ≤ a * b' := hcross
        _ ≤ a' * b := hle
    omega

theorem unique (h : Rounds a b n) (h' : Rounds a b n') (hb : 0 < b) : n = n' :=
  Nat.le_antisymm (h.mono h' hb hb (Nat.le_refl _)) (h'.mono h hb hb (Nat.le_refl _))

theorem congr (h : Rounds a b n) (hb : 0 < b) (hb' : 0 < b') (heq : a * b' = a' * b) :
    Rounds a' b' n := by
  rcases h with ⟨e, hlt, hfull⟩
  have hcut : cut a (b * 2 ^ e) = cut a' (b' * 2 ^ e) := by
    refine cut_congr (Nat.mul_pos hb (Nat.two_pow_pos e)) (Nat.mul_pos hb' (Nat.two_pow_pos e)) ?_
    rw [← Nat.mul_assoc, heq, Nat.mul_assoc]
  have hdiv : a / (b * 2 ^ e) = a' / (b' * 2 ^ e) := congrArg ExtendedMantissa.mantissa hcut
  rw [← roundedMantissa_cut a (by positivity), hcut, roundedMantissa_cut a' (by positivity)]
  rw [hdiv] at hlt hfull
  exact .at e hlt hfull

/-- What a mantissa stands for at its exponent is rounded to itself. -/
theorem exact {m e : Nat} (hb : 0 < b) (hm : m < 2 ^ 53) (hfull : e = 0 ∨ 2 ^ 52 ≤ m) :
    Rounds (m * 2 ^ e * b) b (e * 2 ^ 52 + m) := by
  have hpos : 0 < b * 2 ^ e := by positivity
  have hsplit : m * 2 ^ e * b = m * (b * 2 ^ e) := by ring
  have hdiv : m * 2 ^ e * b / (b * 2 ^ e) = m := by rw [hsplit, Nat.mul_div_cancel _ hpos]
  have hexact : m * 2 ^ e * b % (b * 2 ^ e) = 0 := by rw [hsplit, Nat.mul_mod_left]
  have hround : roundQuotient (m * 2 ^ e * b) (b * 2 ^ e) = m := by
    have hcases := roundQuotient_cases (m * 2 ^ e * b) (b * 2 ^ e)
    omega
  have hat := Rounds.at (a := m * 2 ^ e * b) (b := b) e (by omega) (by omega)
  rwa [hround] at hat

theorem power (hb : 0 < b) (e : Nat) : Rounds (b * 2 ^ (52 + e)) b (e * 2 ^ 52 + 2 ^ 52) := by
  rw [pow_add, Nat.mul_comm]
  exact .exact hb (by decide) (.inr (Nat.le_refl _))

end Rounds

/-- The bits of a full mantissa, or of one at the least exponent. Above all exponents it is
infinite. -/
theorem toNat_pack_finite {s : Sign} {m e : Nat} (h : 0 < m) (hm : m < 2 ^ 53)
    (hfull : e = 0 ∨ 2 ^ 52 ≤ m) :
    (UnpackedFloat.pack Format.binary64 (.finite s m (e - 1074) h)).toNat =
      s.toBitVec.toNat * 2 ^ 63 + min (e * 2 ^ 52 + m) infiniteBits := by
  have htop : infiniteBits = 2047 * 2 ^ 52 := rfl
  by_cases he : e ≤ 2045
  · have hbits : e * 2 ^ 52 + m ≤ infiniteBits := by omega
    rw [(Encodes.finite h hm hfull he).toNat_pack hbits, Nat.min_eq_left hbits]
  · have hbias : (e - 1074 + Format.binary64.exponentBias +
        Format.binary64.mantissaBitsWithoutImplicit : Int).toNat = e + 1 := by
      change (e - 1074 + 1023 + 52 : Int).toNat = e + 1
      omega
    have hwidth : 2 ^ Format.binary64.exponentBits = 2048 := rfl
    have hbits : infiniteBits ≤ e * 2 ^ 52 + m := by omega
    unfold UnpackedFloat.pack
    simp only [hbias, hwidth]
    rw [if_pos (by omega), Nat.min_eq_right hbits]
    cases s <;> rfl

theorem shiftToTargetExponent_eq {a b m : Nat} {i : Int} {acc : Accuracy} (hb : 0 < b)
    (hcut : ExtendedMantissa.ofMantissaAndAccuracy m acc = cut a b) :
    shiftToTargetExponent Format.binary64 m i acc =
      let k := (Format.binary64.targetExponent (totalExponent m i) - i).toNat
      (cut a (b * 2 ^ k), i + k) := by
  simp only [shiftToTargetExponent, shiftToExponent, hcut, cut_shiftRight a hb]

theorem targetExponent_eq (m : Nat) (i : Int) :
    Format.binary64.targetExponent (totalExponent m i) = max (m.log2 + 1 + i - 53) (-1074) := rfl

/-- A rounded mantissa that has become too long is cut once more, at the next exponent. Its bits
do not change. -/
theorem shiftToTargetExponent_rounded {r e : Nat} (hr : r ≤ 2 ^ 53) (hfull : e = 0 ∨ 2 ^ 52 ≤ r) :
    ∃ m e' : Nat, (shiftToTargetExponent Format.binary64 r (e - 1074) .exact).1.mantissa = m ∧
      (shiftToTargetExponent Format.binary64 r (e - 1074) .exact).2 = (e' - 1074 : Int) ∧
      m < 2 ^ 53 ∧ (e' = 0 ∨ 2 ^ 52 ≤ m) ∧ e' * 2 ^ 52 + m = e * 2 ^ 52 + r := by
  rw [shiftToTargetExponent_eq Nat.one_pos (ofMantissaAndAccuracy_exact r), targetExponent_eq]
  rcases Nat.eq_or_lt_of_le hr with rfl | hlt
  · have hlog : (2 ^ 53 : Nat).log2 = 53 := Nat.log2_two_pow
    have hshift : (max ((53 : Nat) + 1 + (e - 1074 : Int) - 53) (-1074) - (e - 1074)).toNat = 1 := by
      omega
    rw [hlog, hshift]
    refine ⟨2 ^ 52, e + 1, rfl, ?_, by decide, .inr (Nat.le_refl _), ?_⟩
    · simp only
      omega
    · omega
  · have hlog : r.log2 ≤ 52 := by
      by_cases hzero : r = 0
      · simp [hzero]
      · have := (Nat.log2_lt hzero).mpr hlt
        omega
    have hshift : (max (r.log2 + 1 + (e - 1074 : Int) - 53) (-1074) - (e - 1074)).toNat = 0 := by
      omega
    rw [hshift]
    refine ⟨r, e, ?_, ?_, hlt, hfull, rfl⟩
    · simp [cut]
    · simp

def shifted (s : Sign) (x : ExtendedMantissa × Int) : UnpackedFloat :=
  if h : x.1.mantissa = 0 then .zero s
  else .finite s x.1.mantissa x.2 (Nat.pos_of_ne_zero h)

theorem roundWithAccuracy_eq (s : Sign) (m : Nat) (i : Int) (acc : Accuracy) :
    roundWithAccuracy Format.binary64 s m i acc =
      let x := shiftToTargetExponent Format.binary64 m i acc
      shifted s (shiftToTargetExponent Format.binary64 x.1.roundedMantissa x.2 .exact) := rfl

theorem toNat_pack_shifted (s : Sign) {r e : Nat} (hr : r ≤ 2 ^ 53) (hfull : e = 0 ∨ 2 ^ 52 ≤ r) :
    (UnpackedFloat.pack Format.binary64
      (shifted s (shiftToTargetExponent Format.binary64 r (e - 1074) .exact))).toNat =
        s.toBitVec.toNat * 2 ^ 63 + min (e * 2 ^ 52 + r) infiniteBits := by
  obtain ⟨m, e', hm, he', hlt, hfull', hbits⟩ := shiftToTargetExponent_rounded hr hfull
  rw [shifted, he', ← hbits]
  split
  next hzero =>
    rw [hm] at hzero
    have hleast : e' * 2 ^ 52 + m = 0 := by omega
    rw [hleast]
    cases s <;> rfl
  next =>
    subst hm
    exact toNat_pack_finite _ hlt hfull'

/-- Shifted to its target exponent, a mantissa fits and is full, unless that is the least exponent. -/
theorem shifted_fits {m e k : Nat} {i : Int} (he : max (m.log2 + 1 + i - 53) (-1074) = e - 1074)
    (hk : (e - 1074 : Int) = i + k) : m / 2 ^ k < 2 ^ 53 ∧ (e = 0 ∨ 2 ^ 52 ≤ m / 2 ^ k) := by
  constructor
  · rw [Nat.div_lt_iff_lt_mul (Nat.two_pow_pos k), ← Nat.pow_add]
    calc m < 2 ^ (m.log2 + 1) := Nat.lt_log2_self
      _ ≤ 2 ^ (53 + k) := Nat.pow_le_pow_right (by decide) (by omega)
  · refine or_iff_not_imp_left.mpr fun hne => ?_
    have hlog : m.log2 = 52 + k := by omega
    have hm : m ≠ 0 := by
      rintro rfl
      rw [Nat.log2_zero] at hlog
      omega
    rw [Nat.le_div_iff_mul_le (Nat.two_pow_pos k), ← Nat.pow_add, ← hlog]
    exact Nat.log2_self_le hm

/-- What is cut at or below its target exponent is rounded there. -/
theorem toNat_pack_roundWithAccuracy (s : Sign) {a b m p q : Nat} {i : Int} {acc : Accuracy}
    (hb : 0 < b) (hcut : ExtendedMantissa.ofMantissaAndAccuracy m acc = cut a b)
    (hi : i = p - q - 1074) (hready : i ≤ max (m.log2 + 1 + i - 53) (-1074)) :
    ∃ n, Rounds (a * 2 ^ p) (b * 2 ^ q) n ∧
      (UnpackedFloat.pack Format.binary64
        (roundWithAccuracy Format.binary64 s m i acc)).toNat =
          s.toBitVec.toNat * 2 ^ 63 + min n infiniteBits := by
  have hm : m = a / b := by
    have hmantissa : (ExtendedMantissa.ofMantissaAndAccuracy m acc).mantissa = a / b :=
      congrArg ExtendedMantissa.mantissa hcut
    rcases acc with _ | _ | _ | _ <;> exact hmantissa
  obtain ⟨e, he⟩ : ∃ e : Nat, max (m.log2 + 1 + i - 53) (-1074) = e - 1074 :=
    ⟨(max (m.log2 + 1 + i - 53) (-1074) + 1074).toNat, by omega⟩
  obtain ⟨k, hk⟩ : ∃ k : Nat, (e - 1074 : Int) = i + k := ⟨(e - 1074 - i : Int).toNat, by omega⟩
  have hpos : 0 < b * 2 ^ q * 2 ^ e := by positivity
  have hcut' : cut a (b * 2 ^ k) = cut (a * 2 ^ p) (b * 2 ^ q * 2 ^ e) := by
    have hsum : q + e = p + k := by omega
    refine cut_congr (by positivity) hpos ?_
    rw [Nat.mul_assoc b, ← Nat.pow_add, hsum, Nat.pow_add]
    ring
  have hmantissa : a * 2 ^ p / (b * 2 ^ q * 2 ^ e) = m / 2 ^ k := by
    rw [hm, Nat.div_div_eq_div_mul]
    exact (congrArg ExtendedMantissa.mantissa hcut').symm
  obtain ⟨hlt, hfull⟩ := shifted_fits he hk
  rw [← hmantissa] at hlt hfull
  have hbounds := roundQuotient_bounds (a * 2 ^ p) (b * 2 ^ q * 2 ^ e)
  have hr : roundQuotient (a * 2 ^ p) (b * 2 ^ q * 2 ^ e) ≤ 2 ^ 53 := by omega
  have hfull' : e = 0 ∨ 2 ^ 52 ≤ roundQuotient (a * 2 ^ p) (b * 2 ^ q * 2 ^ e) := by omega
  have hshift : (max (m.log2 + 1 + i - 53) (-1074) - i).toNat = k := by omega
  refine ⟨_, .at e hlt hfull, ?_⟩
  rw [roundWithAccuracy_eq, shiftToTargetExponent_eq hb hcut, targetExponent_eq, hshift]
  simp only [hcut', ← hk, roundedMantissa_cut (a * 2 ^ p) hpos]
  exact toNat_pack_shifted s hr hfull'

/-- The number one, counted in least positive floats. -/
def unit : Nat := 2 ^ (52 + 1022)

theorem unit_pos : 0 < unit := by
  apply Nat.pow_pos
  decide

def quotientExponent (m m' : Nat) (i i' : Int) : Int :=
  min (i - i') (max (m.log2 + 1 + i - (m'.log2 + 1 + i') - 53) (-1074))

theorem div_eq (s s' : Sign) {m m' k : Nat} {i i' t : Int} (h : 0 < m) (h' : 0 < m')
    (ht : t = quotientExponent m m' i i') (hk : i - i' = t + k) :
    (UnpackedFloat.finite s m i h).div Format.binary64 (.finite s' m' i' h') =
      roundWithAccuracy Format.binary64 (s / s') (m * 2 ^ k / m') t
        (accuracyOfFraction (m * 2 ^ k % m') m') := by
  have hshift : (i - i' - t).toNat = k := by omega
  subst ht
  rw [← Nat.shiftLeft_eq, ← hshift]
  rfl

theorem mul_two_pow_congr {k p q e e' l : Nat} (h : k + p + e' = e + l + q) (m m' : Nat) :
    m * 2 ^ k * 2 ^ p * (m' * 2 ^ e') = m * 2 ^ e * 2 ^ l * (m' * 2 ^ q) := by
  calc m * 2 ^ k * 2 ^ p * (m' * 2 ^ e') = m * m' * 2 ^ (k + p + e') := by
        rw [Nat.pow_add, Nat.pow_add]
        ring
    _ = m * 2 ^ e * 2 ^ l * (m' * 2 ^ q) := by
        rw [h, Nat.pow_add, Nat.pow_add]
        ring

/-- Shifted far enough, a dividend leaves a quotient that fills a mantissa. -/
theorem le_log2_quotient {m m' k : Nat} (h : 0 < m) (h' : 0 < m')
    (hk : m'.log2 + 53 ≤ m.log2 + k) : 52 ≤ (m * 2 ^ k / m').log2 := by
  have hfull : 2 ^ 52 ≤ m * 2 ^ k / m' := by
    rw [Nat.le_div_iff_mul_le h']
    calc 2 ^ 52 * m' ≤ 2 ^ 52 * 2 ^ (m'.log2 + 1) := Nat.mul_le_mul_left _ Nat.lt_log2_self.le
      _ = 2 ^ (52 + (m'.log2 + 1)) := (Nat.pow_add ..).symm
      _ ≤ 2 ^ (m.log2 + k) := Nat.pow_le_pow_right (by decide) (by omega)
      _ = 2 ^ m.log2 * 2 ^ k := Nat.pow_add ..
      _ ≤ m * 2 ^ k := Nat.mul_le_mul_right _ (Nat.log2_self_le h.ne')
  exact (Nat.le_log2 (by omega)).mpr hfull

/-- The quotient of finite floats, rounded. Its mantissa is full where it is cut, unless it is cut
at the least exponent. -/
theorem toNat_pack_div (s s' : Sign) {m m' : Nat} (e e' : Nat) (h : 0 < m) (h' : 0 < m') :
    ∃ n, Rounds (m * 2 ^ e * unit) (m' * 2 ^ e') n ∧
      (UnpackedFloat.pack Format.binary64 ((UnpackedFloat.finite s m (e - 1074) h).div
        Format.binary64 (.finite s' m' (e' - 1074) h'))).toNat =
          (s / s').toBitVec.toNat * 2 ^ 63 + min n infiniteBits := by
  obtain ⟨t, ht⟩ : ∃ t, t = quotientExponent m m' (e - 1074) (e' - 1074) := ⟨_, rfl⟩
  have ht' := ht
  rw [quotientExponent] at ht'
  obtain ⟨k, hk⟩ : ∃ k : Nat, (e - 1074 - (e' - 1074) : Int) = t + k :=
    ⟨(e - e' - t : Int).toNat, by omega⟩
  have hlog : t ≤ -1074 ∨ 52 ≤ (m * 2 ^ k / m').log2 :=
    or_iff_not_imp_left.mpr fun hlarge => le_log2_quotient h h' (by omega)
  obtain ⟨p, q, hpq⟩ : ∃ p q : Nat, t = p - q - 1074 :=
    ⟨(t + 1074).toNat, (-(t + 1074)).toNat, by omega⟩
  obtain ⟨n, hn, hbits⟩ := toNat_pack_roundWithAccuracy (s / s') h'
    (ofMantissaAndAccuracy_fraction (m * 2 ^ k) h') hpq (by omega)
  refine ⟨n, hn.congr (by positivity) (by positivity) ?_, ?_⟩
  · exact mul_two_pow_congr (l := 52 + 1022) (by omega) m m'
  · rw [div_eq s s' h h' ht hk]
    exact hbits

theorem toNat_pack_mul (s s' : Sign) {m m' e e' : Nat} (h : 0 < m) (h' : 0 < m')
    (hfull : e = 0 ∨ 2 ^ 52 ≤ m) (hfull' : e' = 0 ∨ 2 ^ 52 ≤ m') :
    ∃ n, Rounds (m * 2 ^ e * (m' * 2 ^ e')) unit n ∧
      (UnpackedFloat.pack Format.binary64 ((UnpackedFloat.finite s m (e - 1074) h).mul
        Format.binary64 (.finite s' m' (e' - 1074) h'))).toNat =
          (s * s').toBitVec.toNat * 2 ^ 63 + min n infiniteBits := by
  have hlog : e + e' ≤ 1074 ∨ 52 ≤ (m * m').log2 := by
    refine or_iff_not_imp_left.mpr fun hlarge => ?_
    rw [Nat.le_log2 (Nat.mul_pos h h').ne']
    rcases hfull with rfl | hm
    · exact Nat.le_trans (hfull'.resolve_left (by omega)) (Nat.le_mul_of_pos_left _ h)
    · exact Nat.le_trans hm (Nat.le_mul_of_pos_right _ h')
  obtain ⟨n, hn, hbits⟩ := toNat_pack_roundWithAccuracy (s * s') (p := e + e') (q := 52 + 1022)
    (i := e - 1074 + (e' - 1074)) Nat.one_pos (ofMantissaAndAccuracy_exact (m * m')) (by omega)
    (by omega)
  refine ⟨n, ?_, hbits⟩
  rw [Nat.one_mul] at hn
  rw [Nat.mul_mul_mul_comm, ← Nat.pow_add]
  exact hn

end Polyphony.Number
