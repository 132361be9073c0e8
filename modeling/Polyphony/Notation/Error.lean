import Polyphony.Text.Blank

/-! # Errors of compositions

A composition is refused for one cause, at the column where the trouble begins.
-/
namespace Polyphony.Notation

/-- The three readings that can refuse a composition: into tokens, into events, and
of a single pitch. -/
inductive Stage where
  | tokens | events | pitch
deriving DecidableEq, Repr

def Stage.label : Stage → String
  | .tokens => "LexError"
  | .events => "ParseError"
  | .pitch => "PitchError"

inductive Cause where
  | unexpectedCharacter (c : Char)
  | missingOctave (pitch : String)
  | unexpectedInChord (c : Char)
  | unclosedChord
  | emptyChord
  | detachedDuration
  | missingNumber
  | durationOutOfRange (digits : String)
  | unclosedDuration
  | missingKey
  | missingEquals (key : String)
  | unclosedCommand (key : String)
  | missingValue (key : String)
  | orphanDuration
  | zeroDenominator
  | tempoValue (value : String)
  | dynamicsValue (value : String)
  | centsValue (value : String)
  | unknownKey (key : String)
  | invalidPitch (pitch : String)
deriving DecidableEq, Repr

def Cause.stage : Cause → Stage
  | .orphanDuration | .zeroDenominator | .tempoValue _ | .dynamicsValue _ | .centsValue _
  | .unknownKey _ => .events
  | .invalidPitch _ => .pitch
  | _ => .tokens

def Cause.message : Cause → String
  | .unexpectedCharacter c => s!"unexpected character: '{c}'"
  | .missingOctave pitch => s!"expected octave digit after '{pitch}'"
  | .unexpectedInChord c => s!"unexpected '{c}' inside chord"
  | .unclosedChord => "unclosed chord"
  | .emptyChord => "empty chord"
  | .detachedDuration => "duration must directly follow a rest, note or chord"
  | .missingNumber => "expected a number in duration"
  | .durationOutOfRange digits => s!"duration out of range: {digits}"
  | .unclosedDuration => "unclosed duration"
  | .missingKey => "expected command key after '('"
  | .missingEquals key => s!"expected '=' after command key '{key}'"
  | .unclosedCommand key => s!"unclosed command '{key}'"
  | .missingValue key => s!"missing value for command '{key}'"
  | .orphanDuration => "duration without a rest, note or chord"
  | .zeroDenominator => "duration denominator must not be zero"
  | .tempoValue value => s!"TEMPO needs a positive ratio, got '{value}'"
  | .dynamicsValue value => s!"DYNAM needs a ratio, got '{value}'"
  | .centsValue value => s!"CENTS needs a number, got '{value}'"
  | .unknownKey key => s!"unknown command key: '{key}'"
  | .invalidPitch pitch => s!"invalid pitch: '{pitch}'"

/-- A cause and the column, counted from one, where the refused unit begins. A pitch
that stands alone has column zero. -/
structure Error where
  cause : Cause
  col : Nat
deriving DecidableEq, Repr

def Error.text (e : Error) : String :=
  s!"[col {e.col}] {e.cause.stage.label}: {e.cause.message}"

end Polyphony.Notation
