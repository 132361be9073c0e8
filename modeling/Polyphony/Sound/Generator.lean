import Polyphony.Sound.Preset

/-! # Generators

Whatever turns a frequency into samples: a waveform, a preset, or a series of layers
over another generator.
-/
namespace Polyphony

inductive Generator where
  | wave (waveform : Waveform)
  | preset (preset : Preset)
  | series (base : Generator) (partials : List Partial)

def Generator.sampleBy (sin : Float → Float) : Generator → Float → Nat → Float
  | .wave w => w.sampleBy sin
  | .preset p => p.sampleBy sin
  | .series base partials => layered (base.sampleBy sin) partials

def Generator.sample (g : Generator) (freq : Float) (frame : Nat) : Float :=
  g.sampleBy Float.sin freq frame

end Polyphony
