import Polyphony.Number.Exact

/-! # Musical time

Durations are exact fractions of a beat. They turn into frames only where the tempo
is known, and then the count is cut to a whole number.
-/
namespace Polyphony

/-- Frames in a second of sound. -/
def sampleRate : Nat := 44100

/-- The most frames that one event may take, an hour of sound. -/
def maxEventFrames : Nat := sampleRate * 60 * 60

/-- Frames in one beat, before they are cut to a whole number. -/
def framesPerBeat (bpm : Float) : Float := 44100.0 * 60.0 / bpm

structure Beats where
  num : Nat
  den : Nat
  den_pos : 0 < den := by decide
deriving DecidableEq, Repr

namespace Beats

/-- The length of a note that states none. -/
def one : Beats := ⟨1, 1, by decide⟩

def zero : Beats := ⟨0, 1, by decide⟩

def ofFraction? (num den : Nat) : Option Beats :=
  if h : 0 < den then some ⟨num, den, h⟩ else none

def toFloat (b : Beats) : Float := Float.ofNat b.num / Float.ofNat b.den

/-- The frames that the length takes at a tempo. There are none if the length is not
finite or exceeds the limit for one event. -/
def toFrames (b : Beats) (bpm : Float) : Option Nat :=
  let frames := b.toFloat * framesPerBeat bpm
  if frames.isFinite ∧ frames ≤ Float.ofNat maxEventFrames then some frames.toUInt64.toNat
  else none

/-- The fraction as it stands in a composition, whole beats without a denominator. -/
def text (b : Beats) : String :=
  if b.den = 1 then toString b.num else s!"{b.num}/{b.den}"

end Beats
end Polyphony
