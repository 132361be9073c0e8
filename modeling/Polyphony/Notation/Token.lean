import Polyphony.Notation.Error

/-! # Tokens of a composition

A composition is cut into rests, notes, chords, durations and commands, each with
the column, counted from one, of its first character.
-/
namespace Polyphony.Notation

/-- What one unit of a composition says. Pitches and command values are kept as
they are written. -/
inductive Lexeme where
  | rest
  | note (pitch : String)
  | chord (pitches : List String)
  | duration (num den : Nat)
  | command (key value : String)
deriving DecidableEq, Repr

structure Token where
  lexeme : Lexeme
  col : Nat
deriving DecidableEq, Repr

def Lexeme.takesDuration : Lexeme → Bool
  | .rest | .note _ | .chord _ => true
  | .duration _ _ | .command _ _ => false

/-- The pitches that a sounding unit asks for, none for a rest. -/
def Lexeme.pitches? : Lexeme → Option (List String)
  | .rest => some []
  | .note pitch => some [pitch]
  | .chord pitches => some pitches
  | .duration _ _ | .command _ _ => none

end Polyphony.Notation
