import Polyphony.Log
import Polyphony.Mix.Sum
import Polyphony.Number.Decimal

/-! # Mixdowns

The sum of the lines is scaled to full level and cut to signed 16-bit samples. A sum
without any sound stays silent, and a warning says so.
-/
namespace Polyphony

structure Mixdown where
  samples : Array Int16
  peak : Float

namespace Mixdown

/-- A sample in steps of full scale, cut towards zero and held within 16 bits. -/
def quantize (x : Float) : Int16 :=
  let level := x * 32768.0
  if level < 0 then Int16.ofInt (-(min 32768 (-level).toUInt64.toNat : Nat))
  else Int16.ofInt (min 32767 level.toUInt64.toNat : Nat)

def isSilent (m : Mixdown) : Bool := m.peak == 0

def frames (m : Mixdown) : Nat := m.samples.size

def seconds (m : Mixdown) : Float := Float.ofNat m.frames / 44100.0

def ofLines (buffers : List Buffer) : Mixdown :=
  let sum := Mix.sum buffers
  if sum.peak == 0 then ⟨Array.replicate sum.samples.size 0, sum.peak⟩
  else ⟨(Mix.normalize sum.peak sum.samples).map quantize, sum.peak⟩

def warnings (m : Mixdown) : Log :=
  if m.isSilent && 0 < m.frames then [.warn s!"mix of {m.frames} frames is silent"] else []

def summary (m : Mixdown) : LogEntry :=
  .info (s!"rendered {m.frames} frames ({Number.writeFixed 2 m.seconds}s), " ++
    s!"peak {Number.writeFixed 4 m.peak}")

end Mixdown
end Polyphony
