import Polyphony.Number.Numeral

/-! # Envelopes

An envelope shapes the samples of one event: a rise to the peak, a fall to the level
one, and a fade at the end of the buffer. All windows are counted in frames, by indices of
64 bits that start over at zero.
-/
namespace Polyphony

structure Envelope where
  peak : Float
  attack : Nat
  decay : Nat
  release : Nat

abbrev Buffer := Array Float

namespace Envelope

def decayEnd (e : Envelope) : Nat := (e.attack + e.decay) % Number.countBound

/-- The gain at `age` frames from the start of the event with `left` frames up to the
end of the buffer. The attack comes first, then the decay, then the release. -/
def gain (e : Envelope) (age left : Nat) : Float :=
  if age < e.attack then e.peak * (Float.ofNat age / Float.ofNat e.attack)
  else if age < e.decayEnd then
    let p := Float.ofNat (age - e.attack) / Float.ofNat e.decay
    (1 - p) * e.peak + p
  else if left < e.release then
    let p := Float.ofNat (e.release - left) / Float.ofNat e.release
    1 - p
  else 1

/-- Shape `count` samples from index `i` on, for an event that begins at `start`. -/
def shape (e : Envelope) (start : Nat) : (count i : Nat) → Buffer → Buffer
  | 0, _, b => b
  | count + 1, i, b =>
    let gain := e.gain (i - start) (b.size - i)
    shape e start count (i + 1) (b.modify i (· * gain))

/-- Shape every sample from `start` to the end of the buffer. -/
def apply (e : Envelope) (b : Buffer) (start : Nat) : Buffer :=
  e.shape start (b.size - start) start b

end Envelope
end Polyphony
