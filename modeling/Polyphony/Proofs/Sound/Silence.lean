import Polyphony.Number.Numeral
import Polyphony.Proofs.Number.Bounds
import Polyphony.Sound.Generator

/-! # Silence

A frequency that is not positive is silence in every generator. Multiples of such a frequency are
not positive either, so all tones of a preset or a series are zeros, and so are their weighted sums.
The gate and the swell of a preset run at frequencies of their own. They do not turn a zero into
anything else as they are finite.
-/
namespace Polyphony

/-- A layer at a positive multiple of the frequency, whose numbers are finite. -/
structure Partial.Proper (p : Partial) : Prop where
  ratio_finite : p.ratio.isFinite = true
  ratio_pos : 0 < p.ratio
  weight_finite : p.weight.isFinite = true

instance : DecidablePred Partial.Proper := fun p =>
  decidable_of_iff (p.ratio.isFinite = true ∧ 0 < p.ratio ∧ p.weight.isFinite = true)
    ⟨fun ⟨hfinite, hpos, hweight⟩ => ⟨hfinite, hpos, hweight⟩,
      fun h => ⟨h.ratio_finite, h.ratio_pos, h.weight_finite⟩⟩

inductive Generator.Proper : Generator → Prop
  | wave (w : Waveform) : Proper (.wave w)
  | preset (p : Preset) : Proper (.preset p)
  | series {base : Generator} {partials : List Partial} : Proper base →
    (∀ p ∈ partials, p.Proper) → Proper (.series base partials)

section

open Number Waveform

variable {sin : Float → Float} {freq : Float} {frame : Nat}

theorem isZero_rest {x : Float} (h : freq ≤ 0) :
    ((if freq ≤ 0 then 0 else x) == 0) = true := by
  rw [if_pos h]
  rfl

theorem isZero_sineAt (h : freq ≤ 0) : (sineAt sin freq frame == 0) = true := isZero_rest h

theorem isZero_squareAt (h : freq ≤ 0) : (squareAt freq frame == 0) = true := isZero_rest h

theorem isZero_sawtoothAt (h : freq ≤ 0) : (sawtoothAt freq frame == 0) = true := isZero_rest h

theorem isZero_triangleAt (h : freq ≤ 0) : (triangleAt freq frame == 0) = true := isZero_rest h

theorem Waveform.isZero_sampleBy (w : Waveform) (h : freq ≤ 0) :
    (w.sampleBy sin freq frame == 0) = true := by
  cases w with
  | sine => exact isZero_sineAt h
  | square => exact isZero_squareAt h
  | sawtooth => exact isZero_sawtoothAt h
  | triangle => exact isZero_triangleAt h

/-- Layers over silence are silent. -/
theorem isZero_layered {base : Float → Nat → Float} {partials : List Partial}
    (hbase : ∀ freq ≤ 0, (base freq frame == 0) = true) (hpartials : ∀ p ∈ partials, p.Proper)
    (h : freq ≤ 0) : (layered base partials freq frame == 0) = true := by
  refine isZero_total fun x hx => ?_
  obtain ⟨p, hp, rfl⟩ := List.mem_map.mp hx
  obtain ⟨hfinite, hpos, hweight⟩ := hpartials p hp
  exact mul_isZero hweight (hbase _ (mul_nonpos h hfinite hpos))

theorem within_ofNat (h : frame < countBound) : Within 64 (Float.ofNat frame) :=
  .ofNat (i := 64) h.le (by decide)

/-- A slow sine is finite as its angle is. -/
theorem isFinite_gate (hsin : ∀ x : Float, x.isFinite = true → (sin x).isFinite = true)
    (h : frame < countBound) : (Preset.gate sin frame).isFinite = true := by
  have hturn : Within 3 (2.0 * pi) := ⟨by decide, by decide⟩
  have hrate : Within 0 (1.0 / 6.0) := ⟨by decide, by decide⟩
  have hangle : Within (3 + 64 + 0) (2.0 * pi * Float.ofNat frame * (1.0 / 6.0) / 44100.0) :=
    ((hturn.mul (within_ofNat h) (by decide)).mul hrate (by decide)).div (by decide) (by decide)
  have hswell : (sineAt sin (1.0 / 6.0) frame).isFinite = true := by
    rw [sineAt, if_neg (by decide)]
    exact hsin _ hangle.isFinite
  simp only [Preset.gate]
  split
  · exact hswell
  · rfl

/-- A triangle whose cycle is bounded, and not shorter than a frame, is bounded. -/
theorem within_triangleAt {k : Int} (hcycle : Within k (cycle freq)) (hone : 1 ≤ cycle freq)
    (hk : 0 ≤ k ∧ k < 1000) (h : frame < countBound) : Within (k + 5) (triangleAt freq frame) := by
  have hunit {j : Int} (hj : 0 ≤ j ∧ j < 1024) : Within j 1.0 :=
    Within.mono (j := 0) ⟨by decide, by decide⟩ hj.1 hj.2
  have hfour : Within 2 4.0 := ⟨by decide, by decide⟩
  unfold triangleAt
  split
  next => exact .zero rfl (by omega)
  next =>
    have hpos := pos_of_one_le hone
    have hphase : Within (k + 1) (remainder (Float.ofNat frame) (cycle freq) / cycle freq) :=
      (Within.remainder (within_ofNat h).isFinite hcycle hpos (by omega)).div hcycle.isFinite hone
    generalize remainder (Float.ofNat frame) (cycle freq) / cycle freq = phase at hphase
    dsimp only
    split
    next =>
      have hgap : Within (k + 1 + 1) (1.0 - phase) := (hunit (by omega)).sub hphase (by omega)
      have hfall : Within (2 + (k + 1 + 1)) (4.0 * (1.0 - phase)) := hfour.mul hgap (by omega)
      exact (hfall.sub (hunit (by omega)) (by omega)).mono (by omega) (by omega)
    next =>
      have hrise : Within (2 + (k + 1)) (4.0 * phase) := hfour.mul hphase (by omega)
      exact (hrise.sub (hunit (by omega)) (by omega)).mono (by omega) (by omega)

theorem isFinite_slowSwell (h : frame < countBound) : (Preset.slowSwell frame).isFinite = true := by
  have htriangle : Within (18 + 5) (triangleAt (125.0 / (8.0 * 60.0)) frame) :=
    within_triangleAt ⟨by decide, by decide⟩ (by decide) (by decide) h
  have hunit : Within (18 + 5) 1.0 := ⟨by decide, by decide⟩
  exact ((htriangle.add hunit (by decide)).div (by decide) (by decide)).isFinite

theorem multiple_nonpos {r : Float} (hfinite : r.isFinite = true) (hpos : 0 < r) (h : freq ≤ 0) :
    r * freq ≤ 0 := by
  rw [mul_comm]
  exact mul_nonpos h hfinite hpos

/-- What is silent below zero is so with the octaves around it. -/
theorem isZero_octaves (tone : Float → Float) (htone : ∀ freq ≤ 0, (tone freq == 0) = true)
    (h : freq ≤ 0) : (tone (freq / 2.0) + tone freq + tone (2.0 * freq) == 0) = true := by
  have hbelow := htone _ (div_nonpos h (p := 2.0) (by decide) (by decide))
  have habove := htone _ (multiple_nonpos (r := 2.0) (by decide) (by decide) h)
  exact isZero_add (isZero_add hbelow (htone _ h)) habove

theorem isZero_octaveStack (h : freq ≤ 0) : (Preset.octaveStack sin freq frame == 0) = true :=
  isZero_octaves (sineAt sin · frame) (fun _ => isZero_sineAt) h

theorem isZero_swellingSaw (h : freq ≤ 0) (hframe : frame < countBound) :
    (Preset.swellingSaw freq frame == 0) = true :=
  isZero_add (isZero_triangleAt h)
    (isZero_mul (mul_isZero (by decide) (isZero_sawtoothAt h)) (isFinite_slowSwell hframe))

theorem Preset.isZero_sampleBy (p : Preset)
    (hsin : ∀ x : Float, x.isFinite = true → (sin x).isFinite = true) (h : freq ≤ 0)
    (hframe : frame < countBound) : (p.sampleBy sin freq frame == 0) = true := by
  have hoctave : 2.0 * freq ≤ 0 := multiple_nonpos (by decide) (by decide) h
  cases p with
  | sine | inst10 => exact isZero_sineAt h
  | square => exact isZero_squareAt h
  | sawtooth => exact isZero_sawtoothAt h
  | triangle => exact isZero_triangleAt h
  | inst1NoSaws => exact isZero_octaveStack h
  | inst1 =>
    have hsaws := isZero_octaves (sawtoothAt · frame) (fun _ => isZero_sawtoothAt) h
    exact isZero_add (isZero_octaveStack h)
      (isZero_mul (mul_isZero (by decide) hsaws) (isFinite_gate hsin hframe))
  | inst2 | inst9 => exact isZero_layered (fun _ => isZero_sineAt) (by decide) h
  | inst3 =>
    have hovertone {m : Float} (hfinite : m.isFinite = true) (hpos : 0 < m) :
        (sineAt sin (freq * m) frame * Preset.gate sin frame / m == 0) = true :=
      isZero_div (isZero_mul (isZero_sineAt (mul_nonpos h hfinite hpos)) (isFinite_gate hsin hframe))
        hpos
    refine isZero_add (isZero_sineAt h) (isZero_total ?_)
    simp only [List.forall_mem_cons]
    exact ⟨hovertone (by decide) (by decide), hovertone (by decide) (by decide),
      hovertone (by decide) (by decide), nofun⟩
  | inst4 =>
    have hbelow : 0.5 * freq ≤ 0 := multiple_nonpos (by decide) (by decide) h
    exact isZero_mul (isZero_add (isZero_add (isZero_triangleAt h)
      (mul_isZero (by decide) (isZero_sineAt hoctave)))
        (mul_isZero (by decide) (isZero_sineAt hbelow))) (by decide)
  | inst5 => exact isZero_add (isZero_sineAt h) (mul_isZero (by decide) (isZero_squareAt h))
  | inst6 =>
    exact isZero_add (isZero_add (isZero_triangleAt h) (isZero_sineAt hoctave))
      (mul_isZero (by decide) (isZero_sawtoothAt h))
  | inst7 =>
    have htwelfth : 3.0 * freq ≤ 0 := multiple_nonpos (by decide) (by decide) h
    exact isZero_div (isZero_add (isZero_add (isZero_add (isZero_add (isZero_sineAt h)
      (isZero_sineAt hoctave)) (isZero_sineAt htwelfth)) (isZero_triangleAt h))
        (isZero_triangleAt hoctave)) (by decide)
  | inst8 => exact isZero_swellingSaw h hframe
  | inst8DoubledOctaveUp =>
    exact isZero_add (isZero_swellingSaw h hframe)
      (mul_isZero (by decide) (isZero_swellingSaw hoctave hframe))

/-- At a frequency that is not positive, every generator gives a zero of some sign at every frame
that 64 bits count. This holds by any sine that is finite at finite angles, that of `sample` being
the machine's. -/
theorem Generator.silent_of_nonpos {g : Generator} (hg : g.Proper)
    (hsin : ∀ x : Float, x.isFinite = true → (sin x).isFinite = true) (hfreq : freq ≤ 0)
    (hframe : frame < countBound) :
    g.sampleBy sin freq frame = 0 ∨ g.sampleBy sin freq frame = -0.0 := by
  refine eq_of_isZero ?_
  -- A series asks its base for other frequencies, which are no more positive than its own.
  induction hg generalizing freq with
  | wave w => exact w.isZero_sampleBy hfreq
  | preset p => exact p.isZero_sampleBy hsin hfreq hframe
  | series _ hpartials ih => exact isZero_layered (fun _ h => ih h) hpartials hfreq

end

/-- A series over a series over a preset with a gate, at a frequency below all others. The gate is
fully open at this frame. -/
theorem Generator.silent_of_nonpos_nested :
    let g := Generator.series (.series (.preset .inst1) [⟨0.5, 2.0⟩, ⟨3.0, -1.0⟩]) [⟨2.0, 0.25⟩]
    g.sampleBy (fun _ => 1) (-1.0 / 0.0) 66150 = 0 ∨
      g.sampleBy (fun _ => 1) (-1.0 / 0.0) 66150 = -0.0 :=
  Generator.silent_of_nonpos (.series (.series (.preset .inst1) (by decide)) (by decide))
    (fun _ _ => rfl) (by decide) (by decide)

end Polyphony
