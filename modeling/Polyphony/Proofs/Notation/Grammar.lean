import Polyphony.Notation.Scan

/-! # The grammar of a composition

A composition is a row of units with blanks between them. The grammar says which texts
spell a unit and where the units may stand. It knows nothing of how the text is cut.
-/
namespace Polyphony.Notation

def Blank (cs : List Char) : Prop := ∀ c ∈ cs, Text.isBlank c = true

def Digits (cs : List Char) : Prop := cs ≠ [] ∧ ∀ c ∈ cs, c.isDigit = true

def IsAccidental (cs : List Char) : Prop :=
  cs = [] ∨ cs = ['#'] ∨ cs = ['x'] ∨ cs = ['b'] ∨ cs = ['b', 'b']

/-- The cents of a pitch: nothing, or a sign with one or two digits. -/
def IsCents (cs : List Char) : Prop :=
  cs = [] ∨ ∃ sign digits, cs = sign :: digits ∧ (sign = '+' ∨ sign = '-') ∧
    Digits digits ∧ digits.length ≤ 2

/-- The text of a pitch: a letter, an accidental, an octave digit and cents. -/
def IsPitch (cs : List Char) : Prop :=
  ∃ letter accidental octave cents, cs = letter :: (accidental ++ octave :: cents) ∧
    isLetter letter = true ∧ IsAccidental accidental ∧ octave.isDigit = true ∧ IsCents cents

/-- A number of a duration: digits whose value is in range. -/
def IsNumber (digits : List Char) (n : Nat) : Prop :=
  Digits digits ∧ Number.ofDigits digits = n ∧ n < numberBound

def chordText (pitches : List (String × List Char)) : List Char :=
  pitches.flatMap fun p => p.1.toList ++ p.2

inductive Spells : Lexeme → List Char → Prop
  | rest : Spells .rest ['r']
  | note {pitch : String} : IsPitch pitch.toList → Spells (.note pitch) pitch.toList
  | chord {gap : List Char} {pitches : List (String × List Char)} : Blank gap →
      pitches ≠ [] → (∀ p ∈ pitches, IsPitch p.1.toList ∧ Blank p.2) →
      Spells (.chord (pitches.map Prod.fst)) ('[' :: (gap ++ (chordText pitches ++ [']'])))
  | whole {digits : List Char} {num : Nat} : IsNumber digits num →
      Spells (.duration num 1) ('{' :: (digits ++ ['}']))
  | fraction {digits digits' : List Char} {num den : Nat} : IsNumber digits num →
      IsNumber digits' den →
      Spells (.duration num den) ('{' :: (digits ++ '/' :: (digits' ++ ['}'])))
  | command {key value : String} : key.toList ≠ [] → (∀ c ∈ key.toList, c.isUpper = true) →
      value.toList ≠ [] → ')' ∉ value.toList →
      Spells (.command key value) ('(' :: (key.toList ++ '=' :: (value.toList ++ [')'])))

def Lexeme.isDuration : Lexeme → Bool
  | .duration _ _ => true
  | .rest | .note _ | .chord _ | .command _ _ => false

/-- A token with the text that spells it and the blanks before that. -/
structure Piece where
  gap : List Char
  spelling : List Char
  token : Token

def spelled (pieces : List Piece) : List Char := pieces.flatMap fun p => p.gap ++ p.spelling

structure Decomposition where
  pieces : List Piece
  tail : List Char

def Decomposition.tokens (d : Decomposition) : List Token := d.pieces.map Piece.token

/-- How a piece may follow others: the column of its token is that of its first character,
and a duration stands right behind a unit that takes one. -/
structure Piece.Fits (before : List Piece) (p : Piece) : Prop where
  gap : Blank p.gap
  spells : Spells p.token.lexeme p.spelling
  col : p.token.col = 1 + (spelled before ++ p.gap).length
  duration : p.token.lexeme.isDuration = true →
    p.gap = [] ∧ ∃ q, before.getLast? = some q ∧ q.token.lexeme.takesDuration = true

end Polyphony.Notation
