import Polyphony.Number.Exact

/-! # Waveforms

A waveform gives the amplitude of a tone at a frame, counted from the start of its
note. A frequency that is not positive is silence. How the sine of an angle is computed
is left open.
-/
namespace Polyphony

inductive Waveform where
  | sine | square | sawtooth | triangle
deriving DecidableEq, Repr

namespace Waveform

def pi : Float := 3.141592653589793

/-- Frames in one cycle of a tone. -/
def cycle (freq : Float) : Float := 44100.0 / freq

def sineAt (sin : Float → Float) (freq : Float) (frame : Nat) : Float :=
  if freq ≤ 0 then 0 else sin (2.0 * pi * Float.ofNat frame * freq / 44100.0)

/-- Low for the first half of each cycle, high for the second. -/
def squareAt (freq : Float) (frame : Nat) : Float :=
  if freq ≤ 0 then 0
  else if Number.fractionalPart (Float.ofNat frame / cycle freq) > 0.5 then 1 else -1

def sawtoothAt (freq : Float) (frame : Nat) : Float :=
  if freq ≤ 0 then 0
  else Number.fractionalPart (Float.ofNat frame / cycle freq) * 2.0 - 1.0

/-- From -1 up to 1 in the middle of the cycle and down again. -/
def triangleAt (freq : Float) (frame : Nat) : Float :=
  if freq ≤ 0 then 0
  else
    let phase := Number.remainder (Float.ofNat frame) (cycle freq) / cycle freq
    if phase > 0.5 then 4.0 * (1.0 - phase) - 1.0 else 4.0 * phase - 1.0

def sampleBy (sin : Float → Float) : Waveform → Float → Nat → Float
  | .sine => sineAt sin
  | .square => squareAt
  | .sawtooth => sawtoothAt
  | .triangle => triangleAt

end Waveform
end Polyphony
