import Polyphony.Yaml.Scalar

/-! # Names in a YAML text

Anchors and aliases are words. A tag is a word behind one or two exclamation marks,
or any text in angle brackets. Directives are known by name.
-/
namespace Polyphony.Yaml

/-- The word of an anchor or an alias. It must be followed by a gap or by a mark. -/
def takeAnchor (c : Cursor) : Option (String × Cursor) :=
  let (word, c) := c.takeWhile isWordChar
  let closes := c.gapAt 0 || c.head?.any (·  ∈ "?:,]\x7d%@\x60".toList)
  if word.isEmpty || !closes then none else some (String.ofList word, c)

/-- The characters of a tag. Those that mark a collection count only in brackets. -/
def isTagChar (bracketed : Bool) (c : Char) : Bool :=
  isWordChar c || c ∈ ";/?:@&=+$.%!~*\x27()".toList || (bracketed && c ∈ ",[]".toList)

/-- The texts of the tags that two exclamation marks abbreviate. -/
def standardTag (name : String) : String := "tag:yaml.org,2002:" ++ name

/-- The characters of a tag, with a percent sign and two digits for one of them. -/
def unescapeTag : List Char → Option (List Char)
  | '%' :: a :: b :: cs => do
    let n ← ofHex? [a, b]
    let rest ← unescapeTag cs
    if n < 128 then some (Char.ofNat n :: rest) else none
  | '%' :: _ => none
  | c :: cs => (unescapeTag cs).map (c :: ·)
  | [] => some []

def takeTag (flow : Bool) (c : Cursor) : Option (String × Cursor) := do
  let (tag, c) ← match c.chars with
    | '<' :: _ => do
      let (text, c) := c.skip.takeWhile (isTagChar true)
      if text.isEmpty || !c.isAt '>' then none
      else some (String.ofList (← unescapeTag text), c.skip)
    | '!' :: _ => do
      let (text, c) := c.skip.takeWhile (isTagChar false)
      if text.isEmpty then none
      else some (standardTag (String.ofList (← unescapeTag text)), c)
    | _ => do
      let (text, c) := c.takeWhile (isTagChar false)
      if (text.dropWhile isWordChar).head? == some '!' then none
      else some ("!" ++ String.ofList (← unescapeTag text), c)
  if c.gapAt 0 || (flow && c.isAt ',') then some (tag, c) else none

/-- A directive behind its percent sign, up to the end of its line. -/
def takeDirective (c : Cursor) : Option Cursor := do
  let (name, c) := c.takeWhile isWordChar
  let first := c.skipWhile isSpace
  let c ← if name = "YAML".toList then
      let (major, c) := first.takeWhile Char.isDigit
      let (minor, after) := c.skip.takeWhile Char.isDigit
      if ofHex? major = some 1 && c.isAt '.' && (ofHex? minor = some 1 || ofHex? minor = some 2) &&
          !minor.isEmpty then some after
      else none
    else if name = "TAG".toList then
      let (handle, c) := first.takeWhile fun x => isWordChar x || x == '!'
      let (place, c) := (c.skipWhile isSpace).takeWhile (isTagChar true)
      if handle.head? == some '!' && handle.getLast? == some '!' && !place.isEmpty then some c else none
    else none
  if !c.gapAt 0 then none
  else
    let c := c.skipWhile isSpace
    let c := if c.isAt '#' then c.skipWhile (!isBreak ·) else c
    if c.lineEnds then some c.takeBreak.2 else none

end Polyphony.Yaml
