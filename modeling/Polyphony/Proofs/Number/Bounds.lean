import Polyphony.Proofs.Number.Scaling

/-! # Bounds of floats

A float is bounded by a power of two when its bits are. Sums, products and quotients of bounded
floats are bounded, as rounding does not lead past a power of two. So are counts, powers of two and
remainders, and what is bounded is finite.
-/
namespace Polyphony.Number
open Float.Model UnpackedFloat

theorem log2_mul_two_pow {m : Nat} (h : 0 < m) (k : Nat) : (m * 2 ^ k).log2 = m.log2 + k := by
  rw [Nat.log2_eq_iff (by positivity)]
  constructor
  · calc 2 ^ (m.log2 + k) = 2 ^ m.log2 * 2 ^ k := Nat.pow_add ..
      _ ≤ m * 2 ^ k := Nat.mul_le_mul_right _ (Nat.log2_self_le h.ne')
  · calc m * 2 ^ k < 2 ^ (m.log2 + 1) * 2 ^ k :=
        Nat.mul_lt_mul_of_pos_right Nat.lt_log2_self (Nat.two_pow_pos k)
      _ = 2 ^ (m.log2 + k + 1) := by rw [← Nat.pow_add, Nat.add_right_comm]

/-- A mantissa that is exact is first shifted to where the rounding wants it. -/
theorem toNat_pack_round (s : Sign) {m : Nat} (e : Nat) (h : 0 < m) :
    ∃ n, Rounds (m * 2 ^ e) 1 n ∧
      (UnpackedFloat.pack Format.binary64 (round Format.binary64 s m (e - 1074))).toNat =
        s.toBitVec.toNat * 2 ^ 63 + min n infiniteBits := by
  obtain ⟨k, hk⟩ : ∃ k : Nat,
      k = (e - 1074 - Format.binary64.targetExponent (totalExponent m (e - 1074)) : Int).toNat :=
    ⟨_, rfl⟩
  have hround : round Format.binary64 s m (e - 1074) =
      roundWithAccuracy Format.binary64 s (m * 2 ^ k) (e - 1074 - k) .exact := by
    rw [hk, ← Nat.shiftLeft_eq]
    rfl
  rw [targetExponent_eq] at hk
  have hlog : (m * 2 ^ k).log2 = m.log2 + k := log2_mul_two_pow h k
  obtain ⟨n, hn, hbits⟩ := toNat_pack_roundWithAccuracy s (m := m * 2 ^ k) (p := e) (q := k)
    (i := e - 1074 - k) Nat.one_pos (ofMantissaAndAccuracy_exact (m * 2 ^ k)) (by omega) (by omega)
  refine ⟨n, hn.congr (by positivity) Nat.one_pos (by ring), ?_⟩
  rw [hround]
  exact hbits

theorem toNat_pack_normalize (a : Int) (e : Nat) :
    ∃ (s : Sign) (n : Nat), Rounds (a.natAbs * 2 ^ e) 1 n ∧
      (UnpackedFloat.pack Format.binary64
        (UnpackedFloat.normalize Format.binary64 a (e - 1074) .positive)).toNat =
          s.toBitVec.toNat * 2 ^ 63 + min n infiniteBits := by
  rw [UnpackedFloat.normalize]
  rcases Int.lt_trichotomy a 0 with hneg | rfl | hpos
  · have habs : (-a).toNat = a.natAbs := by omega
    rw [Int.compare_eq_lt.mpr hneg, habs]
    exact ⟨.negative, toNat_pack_round .negative e (by omega)⟩
  · have hzero : Rounds (0 * 2 ^ e) 1 0 := by
      simpa using Rounds.exact (m := 0) (e := 0) Nat.one_pos (by decide) (.inl rfl)
    exact ⟨.positive, 0, hzero, rfl⟩
  · have habs : a.toNat = a.natAbs := by omega
    rw [Int.compare_eq_gt.mpr hpos, habs]
    exact ⟨.positive, toNat_pack_round .positive e (by omega)⟩

/-- The sum of finite floats is that of their mantissas at the smaller exponent. -/
theorem exists_add_eq_normalize (s s' : Sign) {m m' : Nat} (e e' : Nat) (h : 0 < m) (h' : 0 < m') :
    ∃ (a : Int) (l : Nat), a.natAbs * 2 ^ l ≤ m * 2 ^ e + m' * 2 ^ e' ∧
      (UnpackedFloat.finite s m (e - 1074) h).add Format.binary64 (.finite s' m' (e' - 1074) h') =
        UnpackedFloat.normalize Format.binary64 a (l - 1074) .positive := by
  have hadd : (UnpackedFloat.finite s m (e - 1074) h).add Format.binary64
      (.finite s' m' (e' - 1074) h') = UnpackedFloat.normalize Format.binary64
        (s.apply (m <<< ((e : Int) - 1074 - min ((e : Int) - 1074) (e' - 1074)).toNat : Nat) +
          s'.apply (m' <<< ((e' : Int) - 1074 - min ((e : Int) - 1074) (e' - 1074)).toNat : Nat))
        (min ((e : Int) - 1074) (e' - 1074)) .positive := rfl
  obtain ⟨l, hl⟩ : ∃ l : Nat, min ((e : Int) - 1074) (e' - 1074) = l - 1074 := ⟨min e e', by omega⟩
  obtain ⟨k, hk⟩ : ∃ k : Nat, e = k + l := ⟨e - l, by omega⟩
  obtain ⟨k', hk'⟩ : ∃ k' : Nat, e' = k' + l := ⟨e' - l, by omega⟩
  have hshift : ((e : Int) - 1074 - (l - 1074)).toNat = k := by omega
  have hshift' : ((e' : Int) - 1074 - (l - 1074)).toNat = k' := by omega
  rw [hl, hshift, hshift', Nat.shiftLeft_eq, Nat.shiftLeft_eq] at hadd
  refine ⟨_, l, ?_, hadd⟩
  have habs : (s.apply (m * 2 ^ k : Nat) + s'.apply (m' * 2 ^ k' : Nat)).natAbs ≤
      m * 2 ^ k + m' * 2 ^ k' := by
    cases s <;> cases s' <;> simp only [Sign.apply] <;> omega
  calc _ ≤ (m * 2 ^ k + m' * 2 ^ k') * 2 ^ l := Nat.mul_le_mul_right _ habs
    _ = m * 2 ^ e + m' * 2 ^ e' := by rw [hk, hk']; ring

/-- Bits stand for one float only. -/
theorem Encodes.unique {s : Sign} {n : Nat} {u u' : UnpackedFloat} (h : Encodes s n u)
    (h' : Encodes s n u') : u = u' := by
  have htop : infiniteBits = 2047 * 2 ^ 52 := rfl
  generalize hn : n = k at h'
  cases h with
  | zero =>
    cases h' with
    | zero => rfl
    | _ => omega
  | @finite m e _ hm hfull he =>
    cases h' with
    | @finite m' e' _ hm' hfull' he' =>
      obtain ⟨rfl, rfl⟩ : e = e' ∧ m = m' := by omega
      rfl
    | _ => omega
  | infinite =>
    cases h' with
    | infinite => rfl
    | _ => omega
  | undefined =>
    cases h' with
    | undefined => rfl
    | _ => omega

theorem unpack_neg (x : Float) : (-x).toModel.unpack = x.toModel.unpack.neg := by
  by_cases hnan : x.isNaN = true
  · have hneg : -x = .ofModel (.pack .notANumber) :=
      congrArg (fun u : UnpackedFloat => Float.ofModel (.pack u.neg)) (unpack_eq_of_isNaN hnan)
    rw [hneg, unpack_eq_of_isNaN hnan]
    rfl
  · rw [Bool.not_eq_true] at hnan
    obtain ⟨hsign, hmagnitude⟩ := neg_parts hnan
    have hneg := encodes (-x)
    rw [hsign, hmagnitude] at hneg
    exact hneg.unique (encodes x).neg

theorem sub_eq_add_neg (x y : Float) : x - y = x + -y := by
  change Float.ofModel (.pack (x.toModel.unpack.sub _ y.toModel.unpack)) =
    .ofModel (.pack (x.toModel.unpack.add _ (-y).toModel.unpack))
  rw [unpack_neg]
  congr 2
  cases x.toModel.unpack with
  | finite s m e =>
    cases y.toModel.unpack with
    | finite s' m' e' =>
      simp only [UnpackedFloat.sub, UnpackedFloat.add, UnpackedFloat.neg, apply_neg,
        Int.sub_eq_add_neg]
    | _ => rfl
  | _ => cases y.toModel.unpack <;> rfl

theorem ofNat_of_lt {n : Nat} (h : n < 2 ^ 53) : Float.ofNat n = n.toUInt64.toFloat := by
  have hfast : Float.ofNat n = n.toUInt64.toFloat * 1 := by
    change Float.ofScientific n false 0 = _
    unfold Float.ofScientific
    rw [dif_pos ⟨h, by decide⟩]
    rfl
  rw [hfast, mul_one]

/-- Counts with more bits than a mantissa are read as numerals. -/
theorem ofScientific_zero {n : Nat} (h : 0 < n) :
    UnpackedFloat.ofScientific Format.binary64 n 0 =
      roundWithAccuracy Format.binary64 .positive (n * 2 ^ 53) (-53) .exact := by
  have hexponent : ¬ (0 : Int) < -(2 ^ Format.binary64.exponentBits + (n.log2 : Int)) := by
    change ¬ (0 : Int) < -(2 ^ 11 + (n.log2 : Int))
    omega
  have hmantissa : n <<< Format.binary64.mantissaBits * 10 ^ (0 : Int).toNat = n * 2 ^ 53 := by
    rw [Int.toNat_zero, Nat.pow_zero, Nat.mul_one, Nat.shiftLeft_eq]
    rfl
  unfold UnpackedFloat.ofScientific
  rw [dif_neg h.ne', if_neg (by decide), if_neg hexponent, if_pos (Int.le_refl 0),
    UnpackedFloat.mul, hmantissa]
  rfl

theorem toNat_toBits_ofNat (n : Nat) :
    ∃ (s : Sign) (r : Nat), Rounds (n * unit) 1 r ∧
      (Float.ofNat n).toBits.toNat = s.toBitVec.toNat * 2 ^ 63 + min r infiniteBits := by
  by_cases h : n < 2 ^ 53
  · have hword : n.toUInt64.toNat = n :=
      UInt64.toNat_ofNat_of_lt' (Nat.lt_trans h (by decide))
    obtain ⟨e, hunit, hzero⟩ : ∃ e : Nat, unit = 2 ^ e ∧ (e - 1074 : Int) = 0 :=
      ⟨52 + 1022, rfl, rfl⟩
    have hpack := toNat_pack_normalize (n.toUInt64.toNat : Int) e
    rw [hzero, ← hunit, Int.natAbs_natCast] at hpack
    nth_rewrite 1 [hword] at hpack
    rw [ofNat_of_lt h]
    exact hpack
  · have hpos : 0 < n := by omega
    have hslow : Float.ofNat n = .ofModel (.pack
        (UnpackedFloat.ofScientific Format.binary64 n 0)) := by
      change Float.ofScientific n false 0 = _
      unfold Float.ofScientific
      rw [dif_neg fun hlt => h hlt.1]
      rfl
    have hlog := log2_mul_two_pow hpos 53
    obtain ⟨r, hround, hbits⟩ := toNat_pack_roundWithAccuracy .positive
      (m := n * 2 ^ 53) (p := 1021) (q := 0) (i := -53) Nat.one_pos
      (ofMantissaAndAccuracy_exact (n * 2 ^ 53)) (by omega) (by omega)
    rw [← ofScientific_zero hpos] at hbits
    refine ⟨.positive, r, hround.congr (by positivity) Nat.one_pos ?_, ?_⟩
    · have hsum : 52 + 1022 = 53 + 1021 := rfl
      rw [unit, hsum, pow_add]
      simp only [Nat.pow_zero, Nat.mul_one, Nat.mul_assoc]
    · rw [hslow]
      exact hbits

/-- Bits of an unsigned float are taken as they are. -/
theorem magnitude_ofBits {n : Nat} (h : n ≤ infiniteBits) :
    magnitude (Float.ofBits (UInt64.ofNat n)) = n := by
  have htop : infiniteBits = 2047 * 2 ^ 52 := rfl
  have hword : (UInt64.ofNat n).toBitVec.toNat = n :=
    UInt64.toNat_ofNat_of_lt' (Nat.lt_of_le_of_lt h (by decide))
  have hn := encodes_unpack (UInt64.ofNat n).toBitVec
  rw [hword, Nat.mod_eq_of_lt (by omega)] at hn
  exact (sign_magnitude_of_toBits (x := Float.ofBits (UInt64.ofNat n)) h (hn.toNat_pack h)).2

/-- What stands for at most a power of two, counted in least positive floats. -/
theorem mul_two_pow_le_power {m e k : Nat} (hm : m < 2 ^ 53) (hfull : e = 0 ∨ 2 ^ 52 ≤ m)
    (hle : e * 2 ^ 52 + m ≤ k * 2 ^ 52 + 2 ^ 52) : m * 2 ^ e ≤ 2 ^ (52 + k) := by
  rw [pow_add]
  exact mul_two_pow_le hm (by decide) hfull (.inr (Nat.le_refl _)) hle

theorem Rounds.le_power {a b n e : Nat} (h : Rounds a b n) (hb : 0 < b)
    (hle : a ≤ b * 2 ^ (52 + e)) : n ≤ e * 2 ^ 52 + 2 ^ 52 :=
  h.mono (.power hb e) hb hb (Nat.mul_le_mul_right b hle)

theorem pos_of_one_le {x : Float} (h : 1 ≤ x) : 0 < x := by
  have hx := (defined_of_le h).2
  have hzero : rank 0 = 0 := by decide
  have hone : 0 < rank 1 := by decide
  rw [lt_iff_rank rfl hx, hzero]
  exact Int.lt_of_lt_of_le hone ((le_iff_rank rfl hx).mp h)

/-- The magnitude of a float is at most `2 ^ k`. -/
structure Within (k : Int) (x : Float) : Prop where
  range : -1022 ≤ k ∧ k < 1024
  bits : magnitude x ≤ (k + 1022).toNat * 2 ^ 52 + 2 ^ 52

namespace Within

variable {j k : Int} {x y p : Float}

theorem zero (hx : (x == 0) = true) (hk : -1022 ≤ k ∧ k < 1024) : Within k x := by
  have hzero : magnitude x = 0 := by rcases eq_of_isZero hx with rfl | rfl <;> decide
  exact ⟨hk, hzero ▸ Nat.zero_le _⟩

/-- A bounded float in its parts, counted in least positive floats. -/
theorem exists_parts (h : Within k x) :
    (x == 0) = true ∨ ∃ (s : Sign) (m e : Nat) (hm : 0 < m),
      x.toModel.unpack = .finite s m (e - 1074) hm ∧ (e = 0 ∨ 2 ^ 52 ≤ m) ∧
        m * 2 ^ e ≤ 2 ^ (52 + (k + 1022).toNat) := by
  have htop : infiniteBits = 2047 * 2 ^ 52 := rfl
  obtain ⟨⟨hlow, hhigh⟩, hbits⟩ := h
  have hx := encodes x
  generalize magnitude x = n at hx hbits
  generalize hu : x.toModel.unpack = u at hx
  cases hx with
  | zero => exact .inl (isZero_iff.mpr ⟨_, hu⟩)
  | @finite m e hm hlt hfull he =>
    have hle : m * 2 ^ e ≤ 2 ^ (52 + (k + 1022).toNat) := mul_two_pow_le_power hlt hfull hbits
    exact .inr ⟨sign x, m, e, hm, rfl, hfull, hle⟩
  | infinite => omega
  | undefined => omega

theorem isFinite (h : Within k x) : x.isFinite = true := by
  have htop : infiniteBits = 2047 * 2 ^ 52 := rfl
  obtain ⟨⟨hlow, hhigh⟩, hbits⟩ := h
  rw [isFinite_iff]
  omega

theorem defined (h : Within k x) : x.isNaN = false := by
  rw [isNaN_eq_false_iff]
  exact Nat.le_of_lt ((isFinite_iff x).mp h.isFinite)

theorem mono (h : Within j x) (hle : j ≤ k) (hk : k < 1024) : Within k x := by
  obtain ⟨⟨hlow, hhigh⟩, hbits⟩ := h
  have hmono : (j + 1022).toNat ≤ (k + 1022).toNat := by omega
  exact ⟨by omega, Nat.le_trans hbits (Nat.add_le_add_right (Nat.mul_le_mul_right _ hmono) _)⟩

/-- A float whose bits are those of a rounded quotient. -/
theorem of_rounds {a b n : Nat} {s : Sign} (hk : -1022 ≤ k ∧ k < 1024) (hb : 0 < b)
    (hround : Rounds a b n) (hle : a ≤ b * 2 ^ (52 + (k + 1022).toNat))
    (hbits : x.toBits.toNat = s.toBitVec.toNat * 2 ^ 63 + min n infiniteBits) : Within k x := by
  have hmagnitude := (sign_magnitude_of_toBits (Nat.min_le_right n infiniteBits) hbits).2
  have hn := hround.le_power hb hle
  exact ⟨hk, by omega⟩

theorem neg (h : Within k x) : Within k (-x) :=
  ⟨h.range, (neg_parts h.defined).2 ▸ h.bits⟩

theorem add (hx : Within k x) (hy : Within k y) (hk : k < 1023) : Within (k + 1) (x + y) := by
  have hlow := hx.range.1
  have hrange : -1022 ≤ k + 1 ∧ k + 1 < 1024 := by omega
  have hmono {z : Float} (hz : Within k z) : Within (k + 1) z := hz.mono (by omega) hrange.2
  rcases hx.exists_parts with hx' | ⟨s, m, e, hm, hu, -, hle⟩
  · rcases agree_zero_add hx' y with hsum | ⟨hsum, -⟩
    · rw [hsum]
      exact hmono hy
    · exact zero hsum hrange
  · rcases hy.exists_parts with hy' | ⟨s', m', e', hm', hu', -, hle'⟩
    · rcases agree_add_zero hy' x with hsum | ⟨hsum, -⟩
      · rw [hsum]
        exact hmono hx
      · exact zero hsum hrange
    · obtain ⟨a, l, ha, hadd⟩ := exists_add_eq_normalize s s' e e' hm hm'
      obtain ⟨t, n, hround, hbits⟩ := toNat_pack_normalize a l
      rw [← hadd, ← hu, ← hu'] at hbits
      have hexponent : 52 + (k + 1 + 1022).toNat = 52 + (k + 1022).toNat + 1 := by omega
      refine of_rounds hrange Nat.one_pos hround ?_ hbits
      calc a.natAbs * 2 ^ l ≤ m * 2 ^ e + m' * 2 ^ e' := ha
        _ ≤ 2 ^ (52 + (k + 1022).toNat) + 2 ^ (52 + (k + 1022).toNat) := Nat.add_le_add hle hle'
        _ = 1 * 2 ^ (52 + (k + 1 + 1022).toNat) := by
          rw [hexponent, pow_succ, Nat.mul_two, Nat.one_mul]

theorem sub (hx : Within k x) (hy : Within k y) (hk : k < 1023) : Within (k + 1) (x - y) := by
  rw [sub_eq_add_neg]
  exact hx.add hy.neg hk

theorem mul (hx : Within j x) (hy : Within k y) (hrange : -1022 ≤ j + k ∧ j + k < 1024) :
    Within (j + k) (x * y) := by
  rcases hx.exists_parts with hx' | ⟨s, m, e, hm, hu, hfull, hle⟩
  · exact zero (isZero_mul hx' hy.isFinite) hrange
  · rcases hy.exists_parts with hy' | ⟨s', m', e', hm', hu', hfull', hle'⟩
    · rw [mul_comm]
      exact zero (isZero_mul hy' hx.isFinite) hrange
    · obtain ⟨n, hround, hbits⟩ := toNat_pack_mul s s' hm hm' hfull hfull'
      rw [← hu, ← hu'] at hbits
      have hlow := hx.range.1
      have hlow' := hy.range.1
      have hexponent : 52 + (j + 1022).toNat + (52 + (k + 1022).toNat) =
          52 + 1022 + (52 + (j + k + 1022).toNat) := by omega
      refine of_rounds hrange unit_pos hround ?_ hbits
      calc m * 2 ^ e * (m' * 2 ^ e')
          ≤ 2 ^ (52 + (j + 1022).toNat) * 2 ^ (52 + (k + 1022).toNat) := Nat.mul_le_mul hle hle'
        _ = unit * 2 ^ (52 + (j + k + 1022).toNat) := by rw [← pow_add, hexponent, pow_add, unit]

/-- A quotient by one or more. -/
theorem div (hx : Within k x) (hfinite : p.isFinite = true) (hone : 1 ≤ p) : Within k (x / p) := by
  have hpos := pos_of_one_le hone
  obtain ⟨m, e, h, hu, hlt, hfull, -, hmagnitude⟩ := Number.exists_parts hfinite hpos
  have hle : 1022 * 2 ^ 52 + 2 ^ 52 ≤ e * 2 ^ 52 + m := by
    have hunit : rank 1 = (1022 * 2 ^ 52 + 2 ^ 52 : Nat) := by decide
    have hsign : sign p = .positive :=
      sign_eq_positive (Nat.lt_of_le_of_lt (toBits_le_of_pos hfinite hpos) (by decide))
    have hrank := (le_iff_rank rfl (defined_of_pos hfinite hpos)).mp hone
    rw [hunit, rank, hsign, hmagnitude, Sign.apply] at hrank
    exact Int.ofNat_le.mp hrank
  have hunit : unit ≤ m * 2 ^ e := by
    rw [unit, pow_add]
    exact mul_two_pow_le (by decide) hlt (.inr (Nat.le_refl _)) hfull hle
  have hscales := (isScaling_div_of_parts hu).scales x hx.defined
  exact ⟨hx.range, Nat.le_trans (hscales.le_self (by positivity) hunit) hx.bits⟩

theorem ofNat {n i : Nat} (hn : n ≤ 2 ^ i) (hi : i < 1024) : Within i (Float.ofNat n) := by
  obtain ⟨s, r, hround, hbits⟩ := toNat_toBits_ofNat n
  have hexponent : 52 + ((i : Int) + 1022).toNat = i + (52 + 1022) := by omega
  refine of_rounds (by omega) Nat.one_pos hround ?_ hbits
  calc n * unit ≤ 2 ^ i * unit := Nat.mul_le_mul_right _ hn
    _ = 1 * 2 ^ (52 + ((i : Int) + 1022).toNat) := by
      rw [hexponent, pow_add 2 i, unit, Nat.one_mul]

theorem powerOfTwo {e : Int} (he : e ≤ k) (hk : -1022 ≤ k ∧ k < 1024) :
    Within k (powerOfTwo e) := by
  have htop : infiniteBits = 2047 * 2 ^ 52 := rfl
  refine ⟨hk, ?_⟩
  rw [Number.powerOfTwo]
  split
  · rw [Nat.shiftLeft_eq, magnitude_ofBits (by omega)]
    omega
  · have hsmall : 1 <<< (e + 1074).toNat ≤ 2 ^ 52 := by
      rw [Nat.shiftLeft_eq, Nat.one_mul]
      exact Nat.pow_le_pow_right (by decide) (by omega)
    rw [magnitude_ofBits (by omega)]
    omega

end Within

/-- The exact value read off the bits of a float has its parts. -/
theorem Exact.ofFloat_parts (x : Float) :
    ∃ e : Nat, (Exact.ofFloat x).exponent = e - 1074 ∧ (Exact.ofFloat x).mantissa < 2 ^ 53 ∧
      (e = 0 ∨ 2 ^ 52 ≤ (Exact.ofFloat x).mantissa) ∧
        magnitude x = e * 2 ^ 52 + (Exact.ofFloat x).mantissa := by
  have hsplit : magnitude x = x.toBits.toNat >>> 52 % 2048 * 2 ^ 52 + x.toBits.toNat % 2 ^ 52 := by
    rw [magnitude, Nat.shiftRight_eq_div_pow]
    omega
  have hfraction : x.toBits.toNat % 2 ^ 52 < 2 ^ 52 := Nat.mod_lt _ (by decide)
  have hfull : 1 <<< 52 = 2 ^ 52 := rfl
  simp only [Exact.ofFloat, hfull, hsplit]
  generalize x.toBits.toNat >>> 52 % 2048 = b
  generalize x.toBits.toNat % 2 ^ 52 = f at hfraction
  split
  next hleast =>
    subst hleast
    exact ⟨0, rfl, Nat.lt_trans hfraction (by decide), .inl rfl, rfl⟩
  next hleast =>
    refine ⟨b - 1, ?_, ?_, .inr (Nat.le_add_right _ _), ?_⟩
    · change (b : Int) - 1075 = (b - 1 : Nat) - 1074
      omega
    · change 2 ^ 52 + f < 2 ^ 53
      omega
    · change b * 2 ^ 52 + f = (b - 1) * 2 ^ 52 + (2 ^ 52 + f)
      omega

/-- The mantissa of a remainder is below that of the divisor, or it is that of the dividend. -/
theorem Exact.mantissa_mod {x y : Exact} (hx : x.mantissa < 2 ^ 53) (hy : y.mantissa < 2 ^ 53)
    (hpos : 0 < y.mantissa) : (x.mod y).mantissa < 2 ^ 53 := by
  rw [Exact.mod]
  simp only
  rcases Int.le_total x.exponent y.exponent with hle | hle
  · have hshift : (x.exponent - min x.exponent y.exponent).toNat = 0 := by omega
    rw [hshift, Nat.shiftLeft_zero]
    exact Nat.lt_of_le_of_lt (Nat.mod_le _ _) hx
  · have hshift : (y.exponent - min x.exponent y.exponent).toNat = 0 := by omega
    rw [hshift, Nat.shiftLeft_zero]
    exact Nat.lt_trans (Nat.mod_lt _ hpos) hy

theorem remainder_eq {x y : Float} (hx : x.isFinite = true) (hy : y.isFinite = true)
    (hpos : 0 < y) : remainder x y = ((Exact.ofFloat x).mod (Exact.ofFloat y)).toFloat := by
  have hdefined := defined_of_pos hy hpos
  have hzero : (y == 0) = false := by
    rw [Bool.eq_false_iff, ne_eq, beq_iff_rank hdefined rfl]
    exact (rank_pos hy hpos).ne'
  rw [remainder, hx, hy, hdefined, hzero]
  rfl

/-- A remainder by a positive float is finite. -/
theorem Within.remainder {k : Int} {x y : Float} (hx : x.isFinite = true) (hy : Within k y)
    (hpos : 0 < y) (hk : -970 ≤ k ∧ k < 1023) : Within (k + 1) (remainder x y) := by
  obtain ⟨e, he, hm, -, -⟩ := Exact.ofFloat_parts x
  obtain ⟨e', he', hm', hfull', hmagnitude⟩ := Exact.ofFloat_parts y
  have hmantissa : 0 < (Exact.ofFloat y).mantissa := by
    obtain ⟨m, i, h, -, -, -, -, hpositive⟩ := Number.exists_parts hy.isFinite hpos
    omega
  have hmod := Exact.mantissa_mod hm hm' hmantissa
  have hexponent : ((Exact.ofFloat x).mod (Exact.ofFloat y)).exponent ≤ k - 52 := by
    have hmin : ((Exact.ofFloat x).mod (Exact.ofFloat y)).exponent ≤ (Exact.ofFloat y).exponent :=
      Int.min_le_right _ _
    have hbits := hy.bits
    omega
  have hsize : Within (53 + (k - 52)) (Float.ofNat ((Exact.ofFloat x).mod (Exact.ofFloat y)).mantissa *
      Number.powerOfTwo ((Exact.ofFloat x).mod (Exact.ofFloat y)).exponent) :=
    mul (.ofNat (i := 53) hmod.le (by decide)) (.powerOfTwo hexponent (by omega)) (by omega)
  have hsum : 53 + (k - 52) = k + 1 := by omega
  rw [hsum] at hsize
  rw [remainder_eq hx hy.isFinite hpos, Exact.toFloat]
  split
  · exact hsize.neg
  · exact hsize

end Polyphony.Number
