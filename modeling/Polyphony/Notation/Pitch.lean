import Polyphony.Notation.Error
import Polyphony.Number.Numeral

/-! # Pitches and their frequencies

A pitch text names a letter, an accidental, an octave and an offset in cents. Its
frequency is counted from the concert pitch of A4, where the steps of each letter
and accidental come from a table.
-/
namespace Polyphony.Notation

inductive Letter where
  | a | b | c | d | e | f | g
deriving DecidableEq, Repr

inductive Accidental where
  | natural | sharp | flat | doubleFlat | doubleSharp
deriving DecidableEq, Repr

structure Pitch where
  letter : Letter
  accidental : Accidental
  octave : Nat
  cents : Int
deriving DecidableEq, Repr

def Letter.ofChar? : Char → Option Letter
  | 'A' => some .a
  | 'B' => some .b
  | 'C' => some .c
  | 'D' => some .d
  | 'E' => some .e
  | 'F' => some .f
  | 'G' => some .g
  | _ => none

/-- The accidental that a text opens with, and the text behind it. -/
def Accidental.split : List Char → Accidental × List Char
  | 'b' :: 'b' :: cs => (.doubleFlat, cs)
  | 'b' :: cs => (.flat, cs)
  | '#' :: cs => (.sharp, cs)
  | 'x' :: cs => (.doubleSharp, cs)
  | cs => (.natural, cs)

/-- Half steps from the A of the same octave. Some spellings next to the ends of the
octave stay inside it, and F flat sounds like F. -/
def halfSteps : Letter → Accidental → Int
  | .a, .natural => 0 | .a, .sharp => 1 | .a, .flat => -1 | .a, .doubleFlat => -2 | .a, .doubleSharp => 2
  | .b, .natural => 2 | .b, .sharp => -9 | .b, .flat => 1 | .b, .doubleFlat => 0 | .b, .doubleSharp => -8
  | .c, .natural => -9 | .c, .sharp => -8 | .c, .flat => 2 | .c, .doubleFlat => 1 | .c, .doubleSharp => -7
  | .d, .natural => -7 | .d, .sharp => -6 | .d, .flat => -8 | .d, .doubleFlat => -9 | .d, .doubleSharp => -5
  | .e, .natural => -5 | .e, .sharp => -4 | .e, .flat => -6 | .e, .doubleFlat => -7 | .e, .doubleSharp => -3
  | .f, .natural => -4 | .f, .sharp => -3 | .f, .flat => -4 | .f, .doubleFlat => -6 | .f, .doubleSharp => -2
  | .g, .natural => -2 | .g, .sharp => -1 | .g, .flat => -3 | .g, .doubleFlat => -4 | .g, .doubleSharp => 0

/-- The cents at the end of a pitch text: nothing, or a sign with one or two digits. -/
def cents? : List Char → Option Int
  | [] => some 0
  | sign :: digits =>
    if digits.length ≤ 2 then
      match sign with
      | '+' => (Number.digits? digits).map Int.ofNat
      | '-' => (Number.digits? digits).map fun n => -Int.ofNat n
      | _ => none
    else none

namespace Pitch

def ofChars? : List Char → Option Pitch
  | [] => none
  | c :: cs => do
    let letter ← Letter.ofChar? c
    let (accidental, cs) := Accidental.split cs
    match cs with
    | [] => none
    | d :: cs =>
      if d.isDigit then
        let cents ← cents? cs
        some ⟨letter, accidental, Number.ofDigits [d], cents⟩
      else none

def ofText? (text : String) : Option Pitch := ofChars? text.toList

/-- Cents from the concert pitch. -/
def offset (p : Pitch) : Int :=
  1200 * ((p.octave : Int) - 4) + 100 * halfSteps p.letter p.accidental + p.cents

def frequency (p : Pitch) : Float := 440.0 * Float.exp2 (Float.ofInt p.offset / 1200.0)

end Pitch

/-- The frequency of one text, which is zero for the rest. -/
def frequency? (text : String) : Except Cause Float :=
  if text = "r" then .ok 0
  else match Pitch.ofText? text with
    | some p => .ok p.frequency
    | none => .error (.invalidPitch text)

end Polyphony.Notation
