import Polyphony.Effect.Rack
import Polyphony.Number.Numeral

/-! # Guarded effects

The effects once more, with a guard at each step of a machine whose indices have 64 bits.
A sum of indices that does not fit, a difference below zero and a sample outside of the
buffer end the run without a result. A run keeps a list of what its echo feeds.
-/
namespace Polyphony

namespace Index

/-- A sum of indices, unless 64 bits do not hold it. -/
def sum? (i j : Nat) : Option Nat := if i + j < Number.countBound then some (i + j) else none

/-- A difference of indices, unless it is below zero. -/
def difference? (i j : Nat) : Option Nat := if j ≤ i then some (i - j) else none

end Index

/-- Change the sample at an index, unless the buffer has none there. -/
def Buffer.change? (b : Buffer) (i : Nat) (f : Float → Float) : Option Buffer :=
  if i < b.size then some (b.modify i f) else none

namespace Envelope

def gain? (e : Envelope) (age left : Nat) : Option Float :=
  if age < e.attack then some (e.peak * (Float.ofNat age / Float.ofNat e.attack))
  else do
    if age < (← Index.sum? e.attack e.decay) then
      let fallen ← Index.difference? age e.attack
      let p := Float.ofNat fallen / Float.ofNat e.decay
      some ((1 - p) * e.peak + p)
    else if left < e.release then
      let faded ← Index.difference? e.release left
      let p := Float.ofNat faded / Float.ofNat e.release
      some (1 - p)
    else some 1

def shape? (e : Envelope) (start : Nat) : (count i : Nat) → Buffer → Option Buffer
  | 0, _, b => some b
  | count + 1, i, b => do
    let age ← Index.difference? i start
    let left ← Index.difference? b.size i
    let gain ← e.gain? age left
    shape? e start count (i + 1) (← Buffer.change? b i (· * gain))

/-- The samples before `start` are skipped, and there may be no others. -/
def run? (e : Envelope) (b : Buffer) (start : Nat) : Option Buffer :=
  e.shape? start (b.size - start) start b

end Envelope

/-- A contribution of an echo: what the sample at `target` hears of the one at `source`. -/
structure Feed where
  source : Nat
  target : Nat
deriving DecidableEq, Repr

namespace Echo

def feed? (e : Echo) : (count t : Nat) → Buffer → Option (Buffer × List Feed)
  | 0, _, b => some (b, [])
  | count + 1, t, b => do
    let heard := e.amplitude * (← b[t]?)
    let target ← Index.sum? t e.frameDelay
    let (b, feeds) ← feed? e count (t + 1) (← Buffer.change? b target (· + heard))
    some (b, ⟨t, target⟩ :: feeds)

/-- The two differences of the bounds stop at zero. -/
def run? (e : Echo) (b : Buffer) (start : Nat) : Option (Buffer × List Feed) :=
  let first := max (start - e.frameDelay) e.activation
  let last := b.size - e.frameDelay
  if last ≤ first then some (b, [])
  else do e.feed? (← Index.difference? last first) first b

end Echo

namespace Rack

def runEnvelope? (r : Rack) (b : Buffer) (start : Nat) : Option Buffer :=
  match r.envelope with
  | some e => e.run? b start
  | none => some b

def runEcho? (r : Rack) (b : Buffer) (start : Nat) : Option (Buffer × List Feed) :=
  match r.echo with
  | some e => e.run? b start
  | none => some (b, [])

/-- Run the effects like `apply`, under guard. -/
def run? (r : Rack) (b : Buffer) (start : Nat) : Option (Buffer × List Feed) := do
  r.runEcho? (← r.runEnvelope? b start) start

end Rack
end Polyphony
