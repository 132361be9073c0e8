/-! # Blank characters

A character is blank when Unicode gives it the property White_Space. This class
separates the units of a composition and is trimmed from the values of commands.
-/
namespace Polyphony.Text

/-- The characters with the Unicode property White_Space. -/
def isBlank (c : Char) : Bool :=
  let n := c.toNat
  (0x09 ≤ n && n ≤ 0x0D) || n == 0x20 || n == 0x85 || n == 0xA0 || n == 0x1680 ||
    (0x2000 ≤ n && n ≤ 0x200A) || n == 0x2028 || n == 0x2029 || n == 0x202F ||
    n == 0x205F || n == 0x3000

def trim (cs : List Char) : List Char :=
  ((cs.dropWhile isBlank).reverse.dropWhile isBlank).reverse

/-- The pieces of a text between the occurrences of a separator, at least one. -/
def pieces (separator : Char) : List Char → List (List Char)
  | [] => [[]]
  | c :: cs =>
    if c = separator then [] :: pieces separator cs
    else match pieces separator cs with
      | [] => [[c]]
      | piece :: more => (c :: piece) :: more

/-- The pieces of a text, each trimmed. -/
def fields (separator : Char) (cs : List Char) : List (List Char) :=
  (pieces separator cs).map trim

end Polyphony.Text
