import Polyphony.Sound.Waveform

/-! # Instrument presets

The catalogue of named timbres. Some presets layer a waveform at several multiples of
the frequency, others let slow tones of their own swell a part of the sound.
-/
namespace Polyphony

/-- One layer of a series: the base at `ratio` times the frequency, scaled by `weight`. -/
structure Partial where
  ratio : Float
  weight : Float

/-- The layers of a series over a base, added from first to last. -/
def layered (base : Float → Nat → Float) (partials : List Partial) (freq : Float)
    (frame : Nat) : Float :=
  Number.total (partials.map fun p => p.weight * base (freq * p.ratio) frame)

inductive Preset where
  | sine | square | sawtooth | triangle
  | inst1 | inst1NoSaws | inst2 | inst3 | inst4 | inst5 | inst6 | inst7
  | inst8 | inst8DoubledOctaveUp | inst9 | inst10
deriving DecidableEq, Repr

namespace Preset
open Waveform

def all : List Preset :=
  [.sine, .square, .sawtooth, .triangle, .inst1, .inst1NoSaws, .inst2, .inst3, .inst4, .inst5,
    .inst6, .inst7, .inst8, .inst8DoubledOctaveUp, .inst9, .inst10]

def name : Preset → String
  | .sine => "sine"
  | .square => "square"
  | .sawtooth => "sawtooth"
  | .triangle => "triangle"
  | .inst1 => "inst1"
  | .inst1NoSaws => "inst1NoSaws"
  | .inst2 => "inst2"
  | .inst3 => "inst3"
  | .inst4 => "inst4"
  | .inst5 => "inst5"
  | .inst6 => "inst6"
  | .inst7 => "inst7"
  | .inst8 => "inst8"
  | .inst8DoubledOctaveUp => "inst8DoubledOctaveUp"
  | .inst9 => "inst9"
  | .inst10 => "inst10"

def ofName? (name : String) : Option Preset := all.find? (·.name = name)

def decayingOctaves : List Partial := [⟨1.0, 1.0⟩, ⟨2.0, 0.25⟩, ⟨4.0, 1.0 / 64.0⟩]

def halvingOctaves : List Partial := [⟨1.0, 1.0⟩, ⟨2.0, 0.5⟩, ⟨4.0, 0.25⟩]

/-- A swell over eight beats at 125 beats per minute. -/
def slowSwell (t : Nat) : Float := (triangleAt (125.0 / (8.0 * 60.0)) t + 1.0) / 2.0

def swellingSaw (f : Float) (t : Nat) : Float :=
  triangleAt f t + 0.5 * sawtoothAt f t * slowSwell t

section

variable (sin : Float → Float)

/-- The tone below, the tone itself and the tone above, an octave apart. -/
def octaveStack (f : Float) (t : Nat) : Float :=
  sineAt sin (f / 2.0) t + sineAt sin f t + sineAt sin (2.0 * f) t

/-- The positive half of a swell that takes six seconds. -/
def gate (t : Nat) : Float :=
  let swell := sineAt sin (1.0 / 6.0) t
  if 0 < swell then swell else 0

/-- The samples of a preset by some sine. -/
def sampleBy : Preset → Float → Nat → Float
  | .sine, f, t | .inst10, f, t => sineAt sin f t
  | .square, f, t => squareAt f t
  | .sawtooth, f, t => sawtoothAt f t
  | .triangle, f, t => triangleAt f t
  | .inst1, f, t =>
    let saws := sawtoothAt (f / 2.0) t + sawtoothAt f t + sawtoothAt (2.0 * f) t
    octaveStack sin f t + 0.1 * saws * gate sin t
  | .inst1NoSaws, f, t => octaveStack sin f t
  | .inst2, f, t => layered (sineAt sin) decayingOctaves f t
  | .inst3, f, t =>
    let swell := gate sin t
    let overtone := fun m : Float => sineAt sin (f * m) t * swell / m
    sineAt sin f t + Number.total [overtone 2.0, overtone 3.0, overtone 4.0]
  | .inst4, f, t =>
    (triangleAt f t + 0.25 * sineAt sin (2.0 * f) t + 0.1 * sineAt sin (0.5 * f) t) * 0.25
  | .inst5, f, t => sineAt sin f t + 0.1 * squareAt f t
  | .inst6, f, t => triangleAt f t + sineAt sin (2.0 * f) t + 0.25 * sawtoothAt f t
  | .inst7, f, t =>
    (sineAt sin f t + sineAt sin (2.0 * f) t + sineAt sin (3.0 * f) t + triangleAt f t +
      triangleAt (2.0 * f) t) / 5.0
  | .inst8, f, t => swellingSaw f t
  | .inst8DoubledOctaveUp, f, t => swellingSaw f t + 0.5 * swellingSaw (2.0 * f) t
  | .inst9, f, t => layered (sineAt sin) halvingOctaves f t

end

def sample (p : Preset) (f : Float) (t : Nat) : Float := p.sampleBy Float.sin f t

end Preset
end Polyphony
