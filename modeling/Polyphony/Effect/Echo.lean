import Polyphony.Effect.Envelope

/-! # Echoes

An echo adds to each sample the finished sample one delay before it, so it feeds on
itself. It reaches back over the start of an event, but never before the frame where
it was installed.
-/
namespace Polyphony

structure Echo where
  amplitude : Float
  beatDelay : Float
  frameDelay : Nat
  activation : Nat

namespace Echo

/-- An echo installed at the frame `activation`. Its delay is fixed in frames by the
frames per beat of that moment. -/
def install (amplitude beatDelay perBeat : Float) (activation : Nat) : Echo where
  amplitude := amplitude
  beatDelay := beatDelay
  frameDelay := (beatDelay * perBeat).toUInt64.toNat
  activation := activation

/-- Feed `count` samples from index `t` on into the samples one delay later. -/
def feed (e : Echo) : (count t : Nat) → Buffer → Buffer
  | 0, _, b => b
  | count + 1, t, b =>
    let heard := e.amplitude * b.getD t 0
    feed e count (t + 1) (b.modify (t + e.frameDelay) (· + heard))

/-- Feed every sample whose echo lands at `start` or later. -/
def apply (e : Echo) (b : Buffer) (start : Nat) : Buffer :=
  let first := max (start - e.frameDelay) e.activation
  e.feed (b.size - e.frameDelay - first) first b

end Echo
end Polyphony
