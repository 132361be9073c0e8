import Polyphony.Beats

/-! # Wave files

Samples go through a writer of wave files. It is opened for a format, takes one sample after the
other, and is closed in the end. What it leaves is a RIFF container with a chunk for the format and
one for the samples. All numbers are little-endian, and the sizes count what has been taken.
-/
namespace Polyphony.Wave

inductive SampleFormat where
  | int | float
deriving DecidableEq, Repr

structure Spec where
  channels : Nat
  rate : Nat
  bits : Nat
  format : SampleFormat
deriving DecidableEq, Repr

/-- The format of every file of the program. -/
def spec : Spec := ⟨1, sampleRate, 16, .int⟩

/-- A writer of wave files that keeps the file in memory. Each of its steps may fail. -/
structure Writer (ε : Type) where
  State : Type
  new : Spec → Except ε State
  write : State → Int16 → Except ε State
  finalize : State → Except ε (List UInt8)

/-- The file that a writer leaves of some samples, unless one of its steps fails. -/
def encodeBy {ε : Type} (w : Writer ε) (samples : List Int16) : Except ε (List UInt8) := do
  let s ← w.new spec
  w.finalize (← samples.foldlM w.write s)

/-- The `width` low bytes of a natural, least first. -/
def littleEndian : (width n : Nat) → List UInt8
  | 0, _ => []
  | width + 1, n => UInt8.ofNat (n % 256) :: littleEndian width (n / 256)

def ascii (text : String) : List UInt8 := text.toList.map fun c => UInt8.ofNat c.toNat

/-- One sample in two's complement. -/
def sampleBytes (s : Int16) : List UInt8 := littleEndian 2 s.toUInt16.toNat

/-- The format chunk of PCM. A frame has one sample for each channel. -/
def formatChunk (s : Spec) : List UInt8 :=
  let frame := s.channels * (s.bits / 8)
  ascii "fmt " ++ littleEndian 4 16 ++ littleEndian 2 1 ++ littleEndian 2 s.channels ++
    littleEndian 4 s.rate ++ littleEndian 4 (s.rate * frame) ++ littleEndian 2 frame ++
    littleEndian 2 s.bits

def container (s : Spec) (samples : List Int16) : List UInt8 :=
  ascii "RIFF" ++ littleEndian 4 (36 + 2 * samples.length) ++ ascii "WAVE" ++ formatChunk s ++
    ascii "data" ++ littleEndian 4 (2 * samples.length) ++ samples.flatMap sampleBytes

/-- A writer that keeps the samples until it is closed, and never fails. -/
def Writer.memory : Writer Empty where
  State := Spec × Array Int16
  new s := .ok (s, #[])
  write | (s, samples), sample => .ok (s, samples.push sample)
  finalize | (s, samples) => .ok (container s samples.toList)

def encode (samples : List Int16) : List UInt8 :=
  match encodeBy .memory samples with
  | .ok bytes => bytes
  | .error e => nomatch e

end Polyphony.Wave
