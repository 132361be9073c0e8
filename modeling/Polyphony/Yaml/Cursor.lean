/-! # Places in a YAML text

A cursor is what is left of the text with its index, line and column, all counted
from zero. Line breaks come in five forms, and four of them read as a line feed.
-/
namespace Polyphony.Yaml

def isSpace (c : Char) : Bool := c == ' ' || c == '\t'

def isBreak (c : Char) : Bool :=
  c == '\n' || c == '\r' || c == '\u0085' || c == '\u2028' || c == '\u2029'

def isPrintable (c : Char) : Bool :=
  let n := c.toNat
  n == 0x09 || n == 0x0A || n == 0x0D || (0x20 ≤ n && n ≤ 0x7E) || n == 0x85 ||
    (0xA0 ≤ n && n ≤ 0xFFFD && n != 0xFEFF) || 0x10000 ≤ n

def isWordChar (c : Char) : Bool := c.isAlphanum || c == '-' || c == '_'

structure Cursor where
  chars : List Char
  index : Nat
  line : Nat
  col : Nat

namespace Cursor

def start (chars : List Char) : Cursor := ⟨chars, 0, 0, 0⟩

def head? (c : Cursor) : Option Char := c.chars.head?

def isAt (c : Cursor) (x : Char) : Bool := c.chars.head? == some x

/-- Whether the character `n` places ahead is a space, a tab, a break or the end. -/
def gapAt (c : Cursor) (n : Nat) : Bool := c.chars[n]?.all fun x => isSpace x || isBreak x

def lineEnds (c : Cursor) : Bool := c.head?.all isBreak

def skip (c : Cursor) : Cursor := ⟨c.chars.tail, c.index + 1, c.line, c.col + 1⟩

def skipMany : Nat → Cursor → Cursor
  | 0, c => c
  | n + 1, c => skipMany n c.skip

/-- Step over a line break, and give the text that it stands for. -/
def takeBreak (c : Cursor) : List Char × Cursor :=
  match c.chars with
  | '\r' :: '\n' :: cs => (['\n'], ⟨cs, c.index + 2, c.line + 1, 0⟩)
  | x :: cs =>
    if x == '\u2028' || x == '\u2029' then ([x], ⟨cs, c.index + 1, c.line + 1, 0⟩)
    else if isBreak x then (['\n'], ⟨cs, c.index + 1, c.line + 1, 0⟩)
    else ([], c)
  | [] => ([], c)

/-- The row of characters of one class at the cursor, and the place behind it. -/
def takeWhile (p : Char → Bool) (c : Cursor) : List Char × Cursor :=
  let row := c.chars.takeWhile p
  (row, ⟨c.chars.dropWhile p, c.index + row.length, c.line, c.col + row.length⟩)

def skipWhile (p : Char → Bool) (c : Cursor) : Cursor := (c.takeWhile p).2

/-- Whether a line starts here with the marker of a document start or end. -/
def atMarker (c : Cursor) : Bool :=
  c.col == 0 && (c.chars.take 3 == ['-', '-', '-'] || c.chars.take 3 == ['.', '.', '.']) && c.gapAt 3

end Cursor
end Polyphony.Yaml
