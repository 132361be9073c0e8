import Polyphony.Log
import Polyphony.Notation.Error
import Polyphony.Notation.Event
import Polyphony.Number.Numeral

/-! # The values of command blocks

Each key has a grammar for its value. An envelope or an echo that cannot be read
turns into the removal of that effect, with a warning. Any other value that cannot
be read is an error, and so is an unknown key.
-/
namespace Polyphony.Notation

def envelope? (value : List Char) : Option Envelope :=
  match Text.fields ';' value with
  | [peak, attack, decay, release] => do
    let peak ← Number.finite? peak
    let attack ← Number.count? attack
    let decay ← Number.count? decay
    let release ← Number.count? release
    some ⟨peak, attack, decay, release⟩
  | _ => none

/-- The two parameters `amplitude;beats`, where the delay is not negative. -/
def echo? (value : List Char) : Option (Float × Float) :=
  match Text.fields ';' value with
  | [amplitude, beats] => do
    let amplitude ← Number.finite? amplitude
    let beats ← (Number.finite? beats).filter (0 ≤ ·)
    some (amplitude, beats)
  | _ => none

/-- A quotient of two floats, or one float alone, if it is finite. -/
def ratio? (value : List Char) : Option Float :=
  match Text.fields '/' value with
  | [num] => (Number.float? num).bind (quotient? · 1)
  | [num, den] => do
    let num ← Number.float? num
    let den ← Number.float? den
    quotient? num den
  | _ => none
where
  quotient? (num den : Float) : Option Float :=
    if den == 0 then none else some (num / den) |>.filter Float.isFinite

/-- The removal that stands in for parameters that cannot be read. -/
def degrade (id : EffectId) (value : String) : Command × Log :=
  (.removeEffect id,
    [.warn s!"{id.label} parameters '{value}' not understood, removing {id.label}"])

/-- The command that a key and a value ask for, with the warnings on the way. -/
def readCommand (key value : String) : Except Cause (Command × Log) :=
  let chars := value.toList
  match key with
  | "ADSR" => .ok (match envelope? chars with
    | some envelope => (.setEnvelope envelope, [])
    | none => degrade .envelope value)
  | "ECHO" => .ok (match echo? chars with
    | some (amplitude, beats) => (.setEcho amplitude beats, [])
    | none => degrade .echo value)
  | "INST" => .ok (.setInstrument (String.ofList (Text.trim chars)), [])
  | "TEMPO" => match (ratio? chars).filter (0 < ·) with
    | some ratio => .ok (.setTempo ratio, [])
    | none => .error (.tempoValue value)
  | "DYNAM" => match ratio? chars with
    | some scale => .ok (.setDynamics scale, [])
    | none => .error (.dynamicsValue value)
  | "CENTS" => match Number.finite? (Text.trim chars) with
    | some cents => .ok (.setCents cents, [])
    | none => .error (.centsValue value)
  | _ => .error (.unknownKey key)

end Polyphony.Notation
