import Polyphony.Number.Exact
import Polyphony.Proofs.Number.Encoding

/-! # Zeros and signs in arithmetic

Floats are computed with in an unpacked form. A zero changes a sum at most in the sign of a zero,
and no later computation can tell zeros apart by their signs but a division by them. A product of
positive floats is not negative.
-/
namespace Polyphony.Number
open Float.Model UnpackedFloat

/-- Nothing is lost when a float is unpacked, as only one word is undefined. -/
theorem pack_unpack (x : Float) : Float.ofModel (.pack x.toModel.unpack) = x := by
  apply toBits_inj.mp
  by_cases hnan : x.isNaN = true
  · rw [unpack_eq_of_isNaN hnan]
    rw [isNaN_iff, magnitude, infiniteBits, ← UInt64.toNat_toBitVec] at hnan
    have hexponent := toNat_unpackExponent x.toBits.toBitVec
    have hmantissa := toNat_unpackMantissa x.toBits.toBitVec
    refine congrArg UInt64.ofBitVec (x.toModel.valid.eq_packedNaN ?_ fun hnone => ?_).symm
    · have htop : (@unpackExponent Format.binary64 x.toBits.toBitVec).toNat = 2047 := by omega
      exact BitVec.toNat_inj.mp htop
    · have hzero : (@unpackMantissa Format.binary64 x.toBits.toBitVec).toNat = 0 :=
        congrArg BitVec.toNat hnone
      omega
  · rw [Bool.not_eq_true, isNaN_eq_false_iff] at hnan
    have hpack := (encodes x).toNat_pack hnan
    rw [toNat_sign, magnitude] at hpack
    apply UInt64.toNat_inj.mp
    change (UnpackedFloat.pack Format.binary64 x.toModel.unpack).toNat = _
    omega

section

variable {x y p : Float}

theorem isZero_iff : (x == 0) = true ↔ ∃ s, x.toModel.unpack = .zero s := by
  have hzero : (0 : Float).toModel.unpack = .zero .positive := rfl
  rw [beq_iff_compare, hzero]
  cases x.toModel.unpack with
  | zero s => simp [UnpackedFloat.compare]
  | notANumber => simp [UnpackedFloat.compare]
  | infinity s => cases s <;> simp [UnpackedFloat.compare]
  | finite s => cases s <;> simp [UnpackedFloat.compare]

theorem isZero_pack (s : Sign) : (Float.ofModel (.pack (.zero s)) == 0) = true := by
  cases s <;> rfl

theorem eq_of_isZero (h : (x == 0) = true) : x = 0 ∨ x = -0.0 := by
  obtain ⟨s, hs⟩ := isZero_iff.mp h
  have hpack := pack_unpack x
  rw [hs] at hpack
  cases s with
  | positive => exact .inl hpack.symm
  | negative => exact .inr hpack.symm

theorem isZero_div (h : (x == 0) = true) (hp : 0 < p) : (x / p == 0) = true := by
  obtain ⟨s, hs⟩ := isZero_iff.mp h
  have hlt : (UnpackedFloat.zero .positive).lt p.toModel.unpack = true := of_decide_eq_true hp
  change (Float.ofModel (.pack (x.toModel.unpack.div _ p.toModel.unpack)) == 0) = true
  rw [hs]
  cases hu : p.toModel.unpack with
  | infinity t => exact isZero_pack _
  | finite t => exact isZero_pack _
  | _ =>
    rw [hu] at hlt
    cases hlt

/-- A zero times a finite float is a zero. -/
theorem isZero_mul (h : (x == 0) = true) (hy : y.isFinite = true) : (x * y == 0) = true := by
  obtain ⟨s, hs⟩ := isZero_iff.mp h
  change y.toModel.unpack.isFinite = true at hy
  change (Float.ofModel (.pack (x.toModel.unpack.mul _ y.toModel.unpack)) == 0) = true
  rw [hs]
  cases hu : y.toModel.unpack with
  | zero t => exact isZero_pack _
  | finite t => exact isZero_pack _
  | _ =>
    rw [hu] at hy
    cases hy

theorem mul_comm (x y : Float) : x * y = y * x := by
  have hsign (s t : Sign) : s * t = t * s := by cases s <;> cases t <;> rfl
  change Float.ofModel (.pack (x.toModel.unpack.mul _ y.toModel.unpack)) =
    .ofModel (.pack (y.toModel.unpack.mul _ x.toModel.unpack))
  congr 2
  cases x.toModel.unpack with
  | notANumber => cases y.toModel.unpack <;> rfl
  | infinity s => cases y.toModel.unpack <;> simp only [UnpackedFloat.mul, hsign s]
  | zero s => cases y.toModel.unpack <;> simp only [UnpackedFloat.mul, hsign s]
  | finite s m e =>
    cases y.toModel.unpack <;>
      simp only [UnpackedFloat.mul, hsign s, Nat.mul_comm m, Int.add_comm e]

theorem mul_isZero (hx : x.isFinite = true) (h : (y == 0) = true) : (x * y == 0) = true := by
  rw [mul_comm]
  exact isZero_mul h hx

/-- The same float, or two zeros. -/
def Agree (x y : Float) : Prop := x = y ∨ (x == 0) = true ∧ (y == 0) = true

theorem Agree.refl (x : Float) : Agree x x := .inl rfl

theorem Agree.symm (h : Agree x y) : Agree y x := h.imp Eq.symm And.symm

theorem Agree.trans {z : Float} (h : Agree x y) (h' : Agree y z) : Agree x z := by
  rcases h with rfl | ⟨hx, hy⟩
  · exact h'
  · rcases h' with rfl | ⟨-, hz⟩
    · exact .inr ⟨hx, hy⟩
    · exact .inr ⟨hx, hz⟩

/-- A zero on the left changes at most the sign of a zero. -/
theorem agree_zero_add (h : (x == 0) = true) (y : Float) : Agree (x + y) y := by
  obtain ⟨s, hs⟩ := isZero_iff.mp h
  have hsum : x + y =
      .ofModel (.pack ((UnpackedFloat.zero s).add Format.binary64 y.toModel.unpack)) :=
    congrArg (fun u : UnpackedFloat => Float.ofModel (.pack (u.add _ y.toModel.unpack))) hs
  have hy := pack_unpack y
  cases hu : y.toModel.unpack with
  | zero t =>
    refine .inr ⟨?_, isZero_iff.mpr ⟨t, hu⟩⟩
    rw [hsum, hu]
    cases s <;> cases t <;> exact isZero_pack _
  | _ =>
    rw [hu] at hsum hy
    exact .inl (hsum.trans hy)

theorem add_comm_of_isZero (h : (x == 0) = true) (y : Float) : x + y = y + x := by
  obtain ⟨s, hs⟩ := isZero_iff.mp h
  change Float.ofModel (.pack (x.toModel.unpack.add _ y.toModel.unpack)) =
    .ofModel (.pack (y.toModel.unpack.add _ x.toModel.unpack))
  rw [hs]
  cases y.toModel.unpack with
  | zero t => cases s <;> cases t <;> rfl
  | _ => rfl

theorem agree_add_zero (h : (y == 0) = true) (x : Float) : Agree (x + y) x := by
  rw [← add_comm_of_isZero h]
  exact agree_zero_add h x

theorem Agree.add_right (h : Agree x y) (z : Float) : Agree (x + z) (y + z) := by
  rcases h with rfl | ⟨hx, hy⟩
  · exact .refl _
  · exact (agree_zero_add hx z).trans (agree_zero_add hy z).symm

/-- What has one value at all zeros has one at floats that agree. -/
theorem Agree.congr {α : Type} {f : Float → α} {c : α} (hf : ∀ x, (x == 0) = true → f x = c)
    (h : Agree x y) : f x = f y := by
  rcases h with rfl | ⟨hx, hy⟩
  · rfl
  · rw [hf x hx, hf y hy]

theorem isZero_add (hx : (x == 0) = true) (hy : (y == 0) = true) : (x + y == 0) = true := by
  rcases agree_zero_add hx y with hsum | ⟨hsum, -⟩
  · rw [hsum]
    exact hy
  · exact hsum

theorem isZero_total {xs : List Float} (h : ∀ x ∈ xs, (x == 0) = true) :
    (total xs == 0) = true := by
  have hfold (a : Float) (ha : (a == 0) = true) : (xs.foldl (· + ·) a == 0) = true := by
    induction xs generalizing a with
    | nil => exact ha
    | cons x xs ih =>
      obtain ⟨hx, hxs⟩ := List.forall_mem_cons.mp h
      exact ih hxs (a + x) (isZero_add ha hx)
  exact hfold (-0.0) rfl

theorem Agree.foldl_add (h : Agree x y) (zs : List Float) :
    Agree (zs.foldl (· + ·) x) (zs.foldl (· + ·) y) := by
  induction zs generalizing x y with
  | nil => exact h
  | cons z zs ih => exact ih (h.add_right z)

/-- A zero anywhere in a sum changes at most the sign of a zero. -/
theorem agree_total_insert (before after : List Float) (h : (x == 0) = true) :
    Agree (total (before ++ x :: after)) (total (before ++ after)) := by
  rw [total, total, List.foldl_append, List.foldl_append, List.foldl_cons]
  exact (agree_add_zero h _).foldl_add after

inductive Unsigned : UnpackedFloat → Prop
  | zero : Unsigned (.zero .positive)
  | finite {m : Nat} {e : Int} {h : 0 < m} : Unsigned (.finite .positive m e h)
  | infinity : Unsigned (.infinity .positive)

theorem Unsigned.toNat_pack_le {u : UnpackedFloat} (h : Unsigned u) :
    (UnpackedFloat.pack Format.binary64 u).toNat ≤ infiniteBits := by
  cases h with
  | zero => decide
  | infinity => decide
  | @finite m e =>
    have htop : infiniteBits = 2047 * 2 ^ 52 := rfl
    have hsign : Sign.positive.toBitVec.toNat = 0 := rfl
    have hwidth : Format.binary64.exponentBits = 11 := rfl
    unfold UnpackedFloat.pack
    dsimp only
    split
    · exact Nat.le_refl infiniteBits
    · split
      · rw [toNat_packComponents, BitVec.toNat_ofNat, BitVec.toNat_ofNat]
        omega
      · rw [toNat_packComponents, BitVec.toNat_ofNat, BitVec.toNat_ofNat]
        omega

theorem roundWithAccuracy_unsigned (m : Nat) (e : Int) (a : Accuracy) :
    Unsigned (roundWithAccuracy Format.binary64 .positive m e a) := by
  unfold roundWithAccuracy
  dsimp only
  split
  · exact .zero
  · exact .finite

theorem unpack_of_pos (hfinite : x.isFinite = true) (hpos : 0 < x) :
    ∃ m e h, x.toModel.unpack = .finite .positive m e h := by
  have hlt : (UnpackedFloat.zero .positive).lt x.toModel.unpack = true := of_decide_eq_true hpos
  change x.toModel.unpack.isFinite = true at hfinite
  cases hu : x.toModel.unpack with
  | finite s m e h =>
    cases s with
    | positive => exact ⟨m, e, h, rfl⟩
    | negative =>
      rw [hu] at hlt
      cases hlt
  | zero s =>
    rw [hu] at hlt
    cases hlt
  | _ =>
    rw [hu] at hfinite
    cases hfinite

theorem toBits_le_of_pos (hfinite : x.isFinite = true) (hpos : 0 < x) :
    x.toBits.toNat ≤ infiniteBits := by
  obtain ⟨m, e, h, hu⟩ := unpack_of_pos hfinite hpos
  rw [← pack_unpack x, hu]
  have hunsigned : Unsigned (.finite .positive m e h) := .finite
  exact hunsigned.toNat_pack_le

theorem mul_toBits_le (hx : x.isFinite = true) (hx' : 0 < x) (hy : y.isFinite = true)
    (hy' : 0 < y) : (x * y).toBits.toNat ≤ infiniteBits := by
  obtain ⟨m, e, h, hu⟩ := unpack_of_pos hx hx'
  obtain ⟨m', e', h', hu'⟩ := unpack_of_pos hy hy'
  change (UnpackedFloat.pack Format.binary64
    (x.toModel.unpack.mul Format.binary64 y.toModel.unpack)).toNat ≤ infiniteBits
  rw [hu, hu']
  exact (roundWithAccuracy_unsigned _ _ _).toNat_pack_le

end

end Polyphony.Number
