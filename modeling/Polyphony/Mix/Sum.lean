import Polyphony.Effect.Envelope

/-! # Sums of lines

Lines are added frame by frame, from first to last. A line that has ended is silent.
The peak is the largest magnitude of a sum, and undefined sums do not count.
-/
namespace Polyphony.Mix

def longest (buffers : List Buffer) : Nat := buffers.foldl (fun n b => max n b.size) 0

/-- The sum of one frame over the buffers that reach past it. -/
def frameSum (buffers : List Buffer) (t : Nat) : Float :=
  Number.total (buffers.filterMap (·[t]?))

/-- The larger of a peak and a magnitude. An undefined magnitude is not larger. -/
def louder (peak x : Float) : Float := if peak < x.abs then x.abs else peak

structure Sum where
  samples : Buffer
  peak : Float

def sum (buffers : List Buffer) : Sum :=
  let samples := Array.ofFn fun t : Fin (longest buffers) => frameSum buffers t
  ⟨samples, samples.foldl louder 0⟩

/-- Scale a buffer so that its peak becomes one. A peak of zero changes nothing. -/
def normalize (peak : Float) (b : Buffer) : Buffer := if 0 < peak then b.map (· / peak) else b

end Polyphony.Mix
