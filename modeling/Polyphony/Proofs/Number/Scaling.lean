import Polyphony.Proofs.Number.Arithmetic
import Polyphony.Proofs.Number.Rounding

/-! # Order and scaling

With a sign, floats are ordered like integers. A quotient by a positive float, and a product with
one, scale a float: the sign is kept, and the bits behind it are scaled in their order.
-/
namespace Polyphony.Number
open Float.Model UnpackedFloat

/-- The place of a float in their order. Only the two zeros share one. -/
def rank (x : Float) : Int := (sign x).apply (magnitude x)

theorem Encodes.neg {s : Sign} {n : Nat} {u : UnpackedFloat} (h : Encodes s n u) :
    Encodes (-s) n u.neg := by
  cases h with
  | zero => exact .zero
  | finite h hm hfull he => exact .finite h hm hfull he
  | infinite => exact .infinite
  | undefined h => exact .undefined h

/-- The order is turned around by a change of signs. -/
theorem compare_eq_neg (u u' : UnpackedFloat) :
    u.compare u' = (u.neg.compare u'.neg).map Ordering.swap := by
  cases u with
  | notANumber => rfl
  | infinity s =>
    cases u' with
    | infinity s' => cases s <;> cases s' <;> rfl
    | _ => cases s <;> rfl
  | zero s =>
    cases u' with
    | infinity s' => cases s' <;> rfl
    | finite s' => cases s' <;> rfl
    | _ => rfl
  | finite s =>
    cases u' with
    | notANumber => cases s <;> rfl
    | infinity s' => cases s <;> cases s' <;> rfl
    | zero => cases s <;> rfl
    | finite s' =>
      cases s with
      | positive =>
        cases s' with
        | positive => exact congrArg some Ordering.swap_swap.symm
        | negative => rfl
      | negative => cases s' <;> rfl

theorem Encodes.compare_opposite {n n' : Nat} {u u' : UnpackedFloat} (h : Encodes .positive n u)
    (h' : Encodes .negative n' u') (hn : n ≤ infiniteBits) (hn' : n' ≤ infiniteBits) :
    u.compare u' = some (compare (n : Int) (-n')) := by
  have hgt {a b : Int} (hab : b < a) : some Ordering.gt = some (compare a b) := by
    rw [Int.compare_eq_gt.mpr hab]
  have htop : (infiniteBits : Int) = 2047 * 2 ^ 52 := rfl
  cases h with
  | zero =>
    cases h' with
    | zero => rfl
    | undefined => omega
    | _ => exact hgt (by omega)
  | undefined => omega
  | _ =>
    cases h' with
    | undefined => omega
    | _ => exact hgt (by omega)

/-- Floats are ordered like the bits that encode them, taken with the sign. -/
theorem Encodes.compare_apply {s s' : Sign} {n n' : Nat} {u u' : UnpackedFloat}
    (h : Encodes s n u) (h' : Encodes s' n' u') (hn : n ≤ infiniteBits) (hn' : n' ≤ infiniteBits) :
    u.compare u' = some (compare (s.apply n) (s'.apply n')) := by
  have hcast (a b : Nat) : compare (a : Int) b = compare a b := by
    rw [Int.compare_eq_ite_lt, Nat.compare_eq_ite_lt]
    simp
  have hswap (a b : Int) : (compare a b).swap = compare (-a) (-b) := by
    rw [Int.compare_swap, Int.compare_eq_ite_lt, Int.compare_eq_ite_lt]
    simp
  cases s with
  | positive =>
    cases s' with
    | positive =>
      rw [h.compare_eq h' hn hn', ← hcast]
      rfl
    | negative => exact h.compare_opposite h' hn hn'
  | negative =>
    cases s' with
    | positive =>
      rw [compare_eq_neg, h.neg.compare_opposite h'.neg hn hn', Option.map_some, hswap, Int.neg_neg]
      rfl
    | negative =>
      rw [compare_eq_neg, h.neg.compare_eq h'.neg hn hn', Option.map_some, ← hcast, hswap]
      rfl

section

variable {x y : Float}

theorem compare_eq_rank (hx : x.isNaN = false) (hy : y.isNaN = false) :
    x.toModel.unpack.compare y.toModel.unpack = some (compare (rank x) (rank y)) :=
  (encodes x).compare_apply (encodes y) ((isNaN_eq_false_iff x).mp hx)
    ((isNaN_eq_false_iff y).mp hy)

theorem le_iff_rank (hx : x.isNaN = false) (hy : y.isNaN = false) : x ≤ y ↔ rank x ≤ rank y := by
  rw [le_iff_compare, compare_eq_rank hx hy, Option.any_some, Int.isLE_compare]

theorem lt_iff_rank (hx : x.isNaN = false) (hy : y.isNaN = false) : x < y ↔ rank x < rank y := by
  rw [lt_iff_compare, compare_eq_rank hx hy, Option.some_inj, Int.compare_eq_lt]

theorem beq_iff_rank (hx : x.isNaN = false) (hy : y.isNaN = false) :
    (x == y) = true ↔ rank x = rank y := by
  rw [beq_iff_compare, compare_eq_rank hx hy, Option.some_inj, Int.compare_eq_eq]

/-- Only defined floats are ordered. -/
theorem defined_of_le (h : x ≤ y) : x.isNaN = false ∧ y.isNaN = false := by
  rw [le_iff_compare] at h
  constructor
  · refine Bool.eq_false_iff.mpr fun hnan => ?_
    rw [unpack_eq_of_isNaN hnan] at h
    cases h
  · refine Bool.eq_false_iff.mpr fun hnan => ?_
    rw [unpack_eq_of_isNaN hnan, compare_notANumber] at h
    cases h

theorem le_of_beq (h : (x == y) = true) : x ≤ y := by
  rw [beq_iff_compare] at h
  rw [le_iff_compare, h]
  rfl

theorem toBits_eq (x : Float) :
    x.toBits.toNat = (sign x).toBitVec.toNat * 2 ^ 63 + magnitude x := by
  rw [toNat_sign, magnitude]
  omega

theorem sign_magnitude_of_toBits {s : Sign} {n : Nat} (hn : n ≤ infiniteBits)
    (h : x.toBits.toNat = s.toBitVec.toNat * 2 ^ 63 + n) : sign x = s ∧ magnitude x = n := by
  have htop : infiniteBits = 2047 * 2 ^ 52 := rfl
  have hbits := toBits_eq x
  have hlt : magnitude x < 2 ^ 63 := Nat.mod_lt _ (by decide)
  have hsign : (sign x).toBitVec.toNat = s.toBitVec.toNat := by omega
  refine ⟨?_, by omega⟩
  cases hs : sign x <;> cases s <;> first | rfl | (rw [hs] at hsign; cases hsign)

/-- Floats that are neither zero nor apart in the order are the same. -/
theorem eq_of_rank (h : rank x = rank y) (hzero : rank x ≠ 0) : x = y := by
  apply toBits_inj.mp
  apply UInt64.toNat_inj.mp
  rw [toBits_eq x, toBits_eq y]
  rw [rank, rank] at h
  rw [rank] at hzero
  cases hs : sign x <;> cases hs' : sign y <;> simp only [hs, hs', Sign.apply] at h hzero ⊢ <;> omega

theorem eq_of_beq (h : (x == y) = true) (hzero : rank y ≠ 0) : x = y := by
  obtain ⟨hx, hy⟩ := defined_of_le (le_of_beq h)
  exact (eq_of_rank ((beq_iff_rank hx hy).mp h).symm hzero).symm

theorem neg_parts (h : x.isNaN = false) : sign (-x) = -sign x ∧ magnitude (-x) = magnitude x := by
  have hx := (isNaN_eq_false_iff x).mp h
  exact sign_magnitude_of_toBits (x := -x) hx ((encodes x).neg.toNat_pack hx)

theorem defined_neg (h : x.isNaN = false) : (-x).isNaN = false := by
  rw [isNaN_eq_false_iff, (neg_parts h).2, ← isNaN_eq_false_iff]
  exact h

theorem apply_neg (s : Sign) (n : Int) : (-s).apply n = -s.apply n := by
  cases s
  · exact (Int.neg_neg n).symm
  · rfl

theorem rank_neg (h : x.isNaN = false) : rank (-x) = -rank x := by
  rw [rank, (neg_parts h).1, (neg_parts h).2, apply_neg, rank]

theorem abs_parts (h : x.isNaN = false) :
    sign x.abs = .positive ∧ magnitude x.abs = magnitude x := by
  refine sign_magnitude_of_toBits ((isNaN_eq_false_iff x).mp h) ?_
  rw [abs_toBits h]
  exact (Nat.zero_add _).symm

/-- A float is its magnitude or the opposite of it. -/
theorem beq_abs_or_beq_neg_abs (h : x.isNaN = false) :
    (x == x.abs) = true ∨ (x == -x.abs) = true := by
  have habs : x.abs.isNaN = false := by rw [abs_isNaN, h]
  have hrank : rank x.abs = magnitude x := by rw [rank, (abs_parts h).1, (abs_parts h).2, Sign.apply]
  rw [beq_iff_rank h habs, beq_iff_rank h (defined_neg habs), rank_neg habs, hrank, rank]
  cases sign x
  · exact .inr rfl
  · exact .inl rfl

theorem Encodes.isInf_iff {s : Sign} {n : Nat} {u : UnpackedFloat} (h : Encodes s n u) :
    u.isInf = true ↔ n = infiniteBits := by
  have htop : infiniteBits = 2047 * 2 ^ 52 := rfl
  cases h with
  | infinite => simp [UnpackedFloat.isInf]
  | _ =>
    simp only [UnpackedFloat.isInf, Bool.false_eq_true, false_iff]
    omega

theorem isInf_iff (x : Float) : x.isInf = true ↔ magnitude x = infiniteBits :=
  (encodes x).isInf_iff

theorem Encodes.isFinite_iff {s : Sign} {n : Nat} {u : UnpackedFloat} (h : Encodes s n u) :
    u.isFinite = true ↔ n < infiniteBits := by
  have htop : infiniteBits = 2047 * 2 ^ 52 := rfl
  cases h with
  | zero => simp [UnpackedFloat.isFinite, htop]
  | finite =>
    simp only [UnpackedFloat.isFinite, true_iff]
    omega
  | infinite => simp [UnpackedFloat.isFinite]
  | undefined =>
    simp only [UnpackedFloat.isFinite, Bool.false_eq_true, false_iff]
    omega

theorem isFinite_iff (x : Float) : x.isFinite = true ↔ magnitude x < infiniteBits :=
  (encodes x).isFinite_iff

theorem Encodes.eq_zero {s : Sign} {n : Nat} {u : UnpackedFloat} (h : Encodes s n u)
    (hn : n = 0) : u = .zero s := by
  have htop : infiniteBits = 2047 * 2 ^ 52 := rfl
  cases h with
  | zero => rfl
  | _ => omega

theorem toUInt64_of_rank_nonpos (h : rank x ≤ 0) : x.toUInt64 = 0 := by
  have hx := encodes x
  rw [rank] at h
  cases hs : sign x with
  | negative =>
    rw [hs] at hx
    exact hx.toUInt64_of_negative
  | positive =>
    rw [hs, Sign.apply] at h
    exact congrArg UnpackedFloat.toUInt64 (hx.eq_zero (by omega))

/-- Cutting keeps the order of all defined floats. -/
theorem toUInt64_mono (h : x ≤ y) : x.toUInt64 ≤ y.toUInt64 := by
  obtain ⟨hx, hy⟩ := defined_of_le h
  have hrank := (le_iff_rank hx hy).mp h
  by_cases hpos : 0 < rank y
  · have hbits : y.toBits.toNat = magnitude y := by
      rw [toBits_eq]
      cases hs : sign y with
      | positive => exact Nat.zero_add _
      | negative =>
        rw [rank, hs, Sign.apply] at hpos
        omega
    exact toUInt64_le (hbits ▸ (isNaN_eq_false_iff y).mp hy) h
  · rw [toUInt64_of_rank_nonpos (by omega)]
    exact UInt64.zero_le

end

/-- How the bits of a magnitude are scaled by a ratio. What a finite one stands for is scaled
exactly and then rounded. -/
inductive Scales (a b : Nat) : Nat → Nat → Prop
  | zero : Scales a b 0 0
  | finite {m e n : Nat} : 0 < m → m < 2 ^ 53 → e = 0 ∨ 2 ^ 52 ≤ m → e ≤ 2045 →
    Rounds (m * 2 ^ e * a) b n → Scales a b (e * 2 ^ 52 + m) (min n infiniteBits)
  | infinite : Scales a b infiniteBits infiniteBits

theorem Scales.le_infiniteBits {a b n k : Nat} (h : Scales a b n k) : k ≤ infiniteBits := by
  cases h with
  | zero => exact Nat.zero_le _
  | finite => exact Nat.min_le_right _ _
  | infinite => exact Nat.le_refl _

/-- Scaling keeps the order of magnitudes, as they are ordered like the numbers they stand for. -/
theorem Scales.mono {a b n n' k k' : Nat} (h : Scales a b n k) (h' : Scales a b n' k')
    (hb : 0 < b) (hle : n ≤ n') : k ≤ k' := by
  have htop : infiniteBits = 2047 * 2 ^ 52 := rfl
  cases h with
  | zero => exact Nat.zero_le _
  | finite hpos hm hfull he hround =>
    cases h' with
    | zero => omega
    | finite _ hm' hfull' he' hround' =>
      have hscaled := Nat.mul_le_mul_right a (mul_two_pow_le hm hm' hfull hfull' hle)
      have hrounded := hround.mono hround' hb hb (Nat.mul_le_mul_right b hscaled)
      omega
    | infinite => exact Nat.min_le_right _ _
  | infinite =>
    cases h' with
    | zero => omega
    | finite => omega
    | infinite => exact Nat.le_refl _

theorem Scales.le_self {a b n k : Nat} (h : Scales a b n k) (hb : 0 < b) (hab : a ≤ b) :
    k ≤ n := by
  cases h with
  | zero => exact Nat.le_refl _
  | @finite m e n hpos hm hfull he hround =>
    have hscaled := Nat.mul_le_mul_right b (Nat.mul_le_mul_left (m * 2 ^ e) hab)
    exact Nat.le_trans (Nat.min_le_left _ _) (hround.mono (.exact hb hm hfull) hb hb hscaled)
  | infinite => exact Nat.le_refl _

theorem Scales.self_le {a b n k : Nat} (h : Scales a b n k) (hb : 0 < b) (hab : b ≤ a) :
    n ≤ k := by
  have htop : infiniteBits = 2047 * 2 ^ 52 := rfl
  cases h with
  | zero => exact Nat.le_refl _
  | @finite m e n hpos hm hfull he hround =>
    have hscaled := Nat.mul_le_mul_right b (Nat.mul_le_mul_left (m * 2 ^ e) hab)
    have hle := Rounds.mono (.exact hb hm hfull) hround hb hb hscaled
    omega
  | infinite => exact Nat.le_refl _

structure IsScaling (a b : Nat) (f : Float → Float) : Prop where
  pos : 0 < b
  undefined : ∀ x, x.isNaN = true → (f x).isNaN = true
  sign : ∀ x, x.isNaN = false → sign (f x) = sign x
  scales : ∀ x, x.isNaN = false → Scales a b (magnitude x) (magnitude (f x))

namespace IsScaling

variable {a b : Nat} {f : Float → Float} {x y : Float}

theorem defined (h : IsScaling a b f) (hx : x.isNaN = false) : (f x).isNaN = false :=
  (isNaN_eq_false_iff _).mpr (h.scales x hx).le_infiniteBits

theorem magnitude_le (h : IsScaling a b f) (hx : x.isNaN = false) (hy : y.isNaN = false)
    (hle : magnitude x ≤ magnitude y) : magnitude (f x) ≤ magnitude (f y) :=
  (h.scales x hx).mono (h.scales y hy) h.pos hle

theorem magnitude_zero (h : IsScaling a b f) (hx : x.isNaN = false) (hzero : magnitude x = 0) :
    magnitude (f x) = 0 :=
  Nat.le_zero.mp ((h.scales x hx).mono .zero h.pos (Nat.le_of_eq hzero))

/-- Scaling keeps the order of floats. -/
theorem le (h : IsScaling a b f) (hle : x ≤ y) : f x ≤ f y := by
  obtain ⟨hx, hy⟩ := defined_of_le hle
  rw [le_iff_rank hx hy, rank, rank] at hle
  rw [le_iff_rank (h.defined hx) (h.defined hy), rank, rank, h.sign x hx, h.sign y hy]
  cases hs : Number.sign x with
  | positive =>
    rw [hs] at hle
    cases hs' : Number.sign y with
    | positive =>
      rw [hs'] at hle
      exact Int.ofNat_le.mpr (h.magnitude_le hx hy (Int.ofNat_le.mp hle))
    | negative =>
      rw [hs'] at hle
      simp only [Sign.apply] at hle ⊢
      have hxzero := h.magnitude_zero hx (by omega)
      have hyzero := h.magnitude_zero hy (by omega)
      omega
  | negative =>
    rw [hs] at hle
    cases hs' : Number.sign y with
    | positive =>
      simp only [Sign.apply]
      omega
    | negative =>
      rw [hs'] at hle
      simp only [Sign.apply] at hle ⊢
      have hturned := h.magnitude_le hy hx (by omega)
      omega

theorem rank_neg (h : IsScaling a b f) (hx : x.isNaN = false) :
    rank (f (-x)) = -rank (f x) := by
  obtain ⟨hsign, hmagnitude⟩ := neg_parts hx
  have hneg := defined_neg hx
  have hle := h.magnitude_le hneg hx (Nat.le_of_eq hmagnitude)
  have hge := h.magnitude_le hx hneg (Nat.le_of_eq hmagnitude.symm)
  rw [rank, h.sign _ hneg, hsign, ← h.sign x hx, apply_neg, Nat.le_antisymm hle hge, rank]

/-- What is not positive stays so. -/
theorem nonpos (h : IsScaling a b f) (hle : x ≤ 0) : f x ≤ 0 := by
  have hzero : rank 0 = 0 := by decide
  have hscaled := h.magnitude_zero (x := 0) rfl (by decide)
  have himage : rank (f 0) = 0 := by
    rw [rank, hscaled]
    cases Number.sign (f 0) <;> rfl
  obtain ⟨hx, -⟩ := defined_of_le hle
  have hrank := (le_iff_rank (h.defined hx) (h.defined (x := 0) rfl)).mp (h.le hle)
  rw [le_iff_rank (h.defined hx) rfl, hzero]
  rwa [himage] at hrank

end IsScaling

section

variable {p : Float}

/-- The parts of a positive finite float. -/
theorem exists_parts (hfinite : p.isFinite = true) (hpos : 0 < p) :
    ∃ (m e : Nat) (h : 0 < m), p.toModel.unpack = .finite .positive m (e - 1074) h ∧
      m < 2 ^ 53 ∧ (e = 0 ∨ 2 ^ 52 ≤ m) ∧ e ≤ 2045 ∧ magnitude p = e * 2 ^ 52 + m := by
  obtain ⟨m, i, h, hu⟩ := unpack_of_pos hfinite hpos
  have hp := encodes p
  rw [hu] at hp ⊢
  generalize magnitude p = n at hp ⊢
  generalize sign p = s at hp
  cases hp with
  | @finite _ e _ hm hfull he => exact ⟨m, e, h, rfl, hm, hfull, he, rfl⟩

theorem defined_of_pos (hfinite : p.isFinite = true) (hpos : 0 < p) : p.isNaN = false :=
  defined_of_toBits_le (toBits_le_of_pos hfinite hpos)

theorem rank_pos (hfinite : p.isFinite = true) (hpos : 0 < p) : 0 < rank p := by
  have hzero : rank 0 = 0 := by decide
  rwa [lt_iff_rank rfl (defined_of_pos hfinite hpos), hzero] at hpos

/-- What packs a scaled magnitude behind the same sign is a scaling. -/
theorem isScaling_of_pack {a b : Nat} {f : Float → Float} (op : UnpackedFloat → UnpackedFloat)
    (hb : 0 < b) (hf : ∀ x, f x = .ofModel (.pack (op x.toModel.unpack)))
    (hnan : op .notANumber = .notANumber)
    (hop : ∀ s n u, Encodes s n u → n ≤ infiniteBits → ∃ k, Scales a b n k ∧
      (UnpackedFloat.pack Format.binary64 (op u)).toNat = s.toBitVec.toNat * 2 ^ 63 + k) :
    IsScaling a b f := by
  have hbits (x : Float) (hx : x.isNaN = false) :
      sign (f x) = sign x ∧ Scales a b (magnitude x) (magnitude (f x)) := by
    obtain ⟨k, hk, hpack⟩ := hop _ _ _ (encodes x) ((isNaN_eq_false_iff x).mp hx)
    obtain ⟨hsign, hmagnitude⟩ := sign_magnitude_of_toBits (x := f x) hk.le_infiniteBits
      (by rw [hf]; exact hpack)
    exact ⟨hsign, hmagnitude ▸ hk⟩
  refine ⟨hb, fun x hx => ?_, fun x hx => (hbits x hx).1, fun x hx => (hbits x hx).2⟩
  rw [hf, unpack_eq_of_isNaN hx, hnan]
  rfl

theorem isScaling_div_of_parts {m' e' : Nat} {h' : 0 < m'}
    (hp : p.toModel.unpack = .finite .positive m' (e' - 1074) h') :
    IsScaling unit (m' * 2 ^ e') (· / p) := by
  refine isScaling_of_pack
    (fun u => u.div Format.binary64 (.finite .positive m' (e' - 1074) h'))
    (by positivity) (fun x => ?_) rfl fun s n u hu hn => ?_
  · rw [← hp]
    rfl
  · cases hu with
    | zero => exact ⟨0, .zero, by cases s <;> rfl⟩
    | @finite m e h hm hfull he =>
      obtain ⟨n, hround, hpack⟩ := toNat_pack_div s .positive e e' h h'
      have hsign : s / .positive = s := by cases s <;> rfl
      rw [hsign] at hpack
      exact ⟨_, .finite h hm hfull he hround, hpack⟩
    | infinite => exact ⟨infiniteBits, .infinite, by cases s <;> rfl⟩
    | undefined => omega

theorem isScaling_div (hfinite : p.isFinite = true) (hpos : 0 < p) :
    ∃ a b, IsScaling a b (· / p) := by
  obtain ⟨m', e', h', hp, -⟩ := exists_parts hfinite hpos
  exact ⟨_, _, isScaling_div_of_parts hp⟩

theorem isScaling_mul_of_parts {m' e' : Nat} {h' : 0 < m'}
    (hp : p.toModel.unpack = .finite .positive m' (e' - 1074) h') (hfull' : e' = 0 ∨ 2 ^ 52 ≤ m') :
    IsScaling (m' * 2 ^ e') unit (· * p) := by
  refine isScaling_of_pack
    (fun u => u.mul Format.binary64 (.finite .positive m' (e' - 1074) h'))
    unit_pos (fun x => ?_) rfl fun s n u hu hn => ?_
  · rw [← hp]
    rfl
  · cases hu with
    | zero => exact ⟨0, .zero, by cases s <;> rfl⟩
    | @finite m e h hm hfull he =>
      obtain ⟨n, hround, hpack⟩ := toNat_pack_mul s .positive h h' hfull hfull'
      have hsign : s * .positive = s := by cases s <;> rfl
      rw [hsign] at hpack
      exact ⟨_, .finite h hm hfull he hround, hpack⟩
    | infinite => exact ⟨infiniteBits, .infinite, by cases s <;> rfl⟩
    | undefined => omega

theorem isScaling_mul (hfinite : p.isFinite = true) (hpos : 0 < p) :
    ∃ a b, IsScaling a b (· * p) := by
  obtain ⟨m', e', h', hp, -, hfull', -⟩ := exists_parts hfinite hpos
  exact ⟨_, _, isScaling_mul_of_parts hp hfull'⟩

theorem mul_nonpos {x : Float} (hx : x ≤ 0) (hfinite : p.isFinite = true) (hpos : 0 < p) :
    x * p ≤ 0 := by
  obtain ⟨a, b, hscaling⟩ := isScaling_mul hfinite hpos
  exact hscaling.nonpos hx

theorem div_nonpos {x : Float} (hx : x ≤ 0) (hfinite : p.isFinite = true) (hpos : 0 < p) :
    x / p ≤ 0 := by
  obtain ⟨a, b, hscaling⟩ := isScaling_div hfinite hpos
  exact hscaling.nonpos hx

/-- A positive finite float divided by itself is one. -/
theorem div_self (hfinite : p.isFinite = true) (hpos : 0 < p) : p / p = 1 := by
  obtain ⟨m, e, h, hp, -⟩ := exists_parts hfinite hpos
  obtain ⟨n, hround, hpack⟩ := toNat_pack_div .positive .positive e e h h
  have hn : n = 1023 * 2 ^ 52 := hround.unique (.power (by positivity) 1022) (by positivity)
  have hdiv : (p / p).toBits.toNat = 1023 * 2 ^ 52 := by
    rw [← hp, hn] at hpack
    exact hpack
  have hone : (1 : Float).toBits.toNat = 1023 * 2 ^ 52 := by decide
  exact toBits_inj.mp (UInt64.toNat_inj.mp (hdiv.trans hone.symm))

/-- The parts of the number one. -/
theorem one_parts : ∃ (m e : Nat) (h : 0 < m),
    (1 : Float).toModel.unpack = .finite .positive m (e - 1074) h ∧ 2 ^ 52 ≤ m ∧
      m * 2 ^ e = unit :=
  ⟨2 ^ 52, 1022, by decide, rfl, Nat.le_refl _, (pow_add 2 52 1022).symm⟩

/-- One is neutral, also for zeros, infinite and undefined floats. -/
theorem mul_one (x : Float) : x * 1 = x := by
  obtain ⟨m, e, h, hone, hfull, hunit⟩ := one_parts
  have hscaling := isScaling_mul_of_parts hone (.inr hfull)
  rw [hunit] at hscaling
  by_cases hnan : x.isNaN = true
  · have hx := pack_unpack x
    have hproduct := pack_unpack (x * 1)
    rw [unpack_eq_of_isNaN hnan] at hx
    rw [unpack_eq_of_isNaN (hscaling.undefined x hnan)] at hproduct
    exact hproduct.symm.trans hx
  · rw [Bool.not_eq_true] at hnan
    have hscales := hscaling.scales x hnan
    have hmagnitude : magnitude (x * 1) = magnitude x :=
      Nat.le_antisymm (hscales.le_self unit_pos (Nat.le_refl _))
        (hscales.self_le unit_pos (Nat.le_refl _))
    apply toBits_inj.mp
    apply UInt64.toNat_inj.mp
    rw [toBits_eq, toBits_eq x, hscaling.sign x hnan, hmagnitude]

theorem neg_div_self (hfinite : p.isFinite = true) (hpos : 0 < p) : -p / p = -1 := by
  obtain ⟨a, b, hscaling⟩ := isScaling_div hfinite hpos
  have hp := defined_of_pos hfinite hpos
  have hrank : rank (-p / p) = rank (-1) := by
    rw [hscaling.rank_neg hp, div_self hfinite hpos]
    decide
  exact (eq_of_rank hrank.symm (by decide)).symm

end

end Polyphony.Number
