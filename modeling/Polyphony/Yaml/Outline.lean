import Polyphony.Yaml.Tag

/-! # The outline of a YAML text

The text is cut into marks, names and scalars. Indentation opens and closes block
collections, and a scalar turns out to be a key only when its colon is met, so the
marks for it go in front of what has been cut already.
-/
namespace Polyphony.Yaml

inductive Style where
  | plain | quoted | block
deriving DecidableEq, Repr

inductive Mark where
  | directive | documentStart | documentEnd
  | blockSequence | blockMapping | blockEnd
  | flowSequence | flowSequenceEnd | flowMapping | flowMappingEnd
  | entry | flowEntry | key | value
  | alias (name : String)
  | anchor (name : String)
  | tag (text : String)
  | scalar (style : Style) (text : String)
deriving DecidableEq, Repr

/-- A place where a key without a mark of its own may begin. A required one must turn
out to be a key. -/
structure KeyPlace where
  position : Nat
  index : Nat
  line : Nat
  col : Nat
  required : Bool

/-- The state of the cut. There is one key place for the block level and one for each
open flow collection, the innermost first. -/
structure Outline where
  cursor : Cursor
  marks : Array Mark
  indent : Int
  indents : List Int
  keyAllowed : Bool
  keys : List (Option KeyPlace)

namespace Outline

def start (text : List Char) : Outline := ⟨.start text, #[], -1, [], true, [none]⟩

def inFlow (s : Outline) : Bool := 1 < s.keys.length

def push (s : Outline) (m : Mark) : Outline := { s with marks := s.marks.push m }

def insert (s : Outline) (position : Nat) (m : Mark) : Outline :=
  { s with marks := s.marks.insertIdxIfInBounds position m }

def skip (s : Outline) (n : Nat) : Outline := { s with cursor := s.cursor.skipMany n }

def allowKey (s : Outline) (allowed : Bool) : Outline := { s with keyAllowed := allowed }

/-- Forget the key place of this level. A required one is an error. -/
def dropKey (s : Outline) : Option Outline :=
  match s.keys with
  | some k :: keys => if k.required then none else some { s with keys := none :: keys }
  | _ => some s

def noteKey (s : Outline) : Option Outline :=
  if s.keyAllowed then do
    let required := !s.inFlow && s.indent == (s.cursor.col : Int)
    let s ← s.dropKey
    let k : KeyPlace := ⟨s.marks.size, s.cursor.index, s.cursor.line, s.cursor.col, required⟩
    some { s with keys := some k :: s.keys.tail }
  else some s

/-- Open a block collection at a column that is deeper than the present one. -/
def indentTo (s : Outline) (col : Int) (m : Mark) (position : Nat) : Outline :=
  if !s.inFlow && s.indent < col then
    { s.insert position m with indent := col, indents := s.indent :: s.indents }
  else s

def closeBlocks (col : Int) : List Int → Int → Array Mark → List Int × Int × Array Mark
  | [], indent, marks => ([], indent, marks)
  | outer :: indents, indent, marks =>
    if col < indent then closeBlocks col indents outer (marks.push .blockEnd)
    else (outer :: indents, indent, marks)

/-- Close the block collections that are deeper than a column. -/
def unindentTo (s : Outline) (col : Int) : Outline :=
  if s.inFlow then s
  else
    let (indents, indent, marks) := closeBlocks col s.indents s.indent s.marks
    { s with indents := indents, indent := indent, marks := marks }

/-- Go to the next mark over spaces, comments and breaks. A new line of a block may
start with a key, and then a tab may not indent it. -/
def seek : Nat → Outline → Outline
  | 0, s => s
  | fuel + 1, s =>
    let tabs := s.inFlow || !s.keyAllowed
    let c := s.cursor.skipWhile fun x => x == ' ' || (tabs && x == '\t')
    let c := if c.isAt '#' then c.skipWhile (!isBreak ·) else c
    if c.head?.any isBreak then
      seek fuel { s with cursor := c.takeBreak.2, keyAllowed := s.keyAllowed || !s.inFlow }
    else { s with cursor := c }

def takeMarker (s : Outline) (m : Mark) : Option Outline := do
  let s ← (s.unindentTo (-1)).dropKey
  some (((s.allowKey false).push m).skip 3)

def openFlow (s : Outline) (m : Mark) : Option Outline := do
  let s ← s.noteKey
  some (({ s with keys := none :: s.keys, keyAllowed := true }.push m).skip 1)

def closeFlow (s : Outline) (m : Mark) : Option Outline := do
  let s ← s.dropKey
  let keys := if s.inFlow then s.keys.tail else s.keys
  some (({ s with keys := keys, keyAllowed := false }.push m).skip 1)

/-- A mark of the block style, which a flow collection leaves to the grammar. -/
def takeBlockMark (s : Outline) (m opens : Mark) (allowed : Bool) : Option Outline := do
  let s ← if s.inFlow then some s
    else if s.keyAllowed then some (s.indentTo s.cursor.col opens s.marks.size)
    else none
  let s ← s.dropKey
  some (((s.allowKey allowed).push m).skip 1)

/-- A key place is good for a colon on its own line, within 1024 characters. -/
def KeyPlace.reaches (k : KeyPlace) (c : Cursor) : Bool := k.line == c.line && c.index ≤ k.index + 1024

/-- A colon. If a key place is open the key begins there, else its key has a mark. -/
def takeValue (s : Outline) : Option Outline :=
  match s.keys.head?.join.filter (KeyPlace.reaches · s.cursor) with
  | some k =>
    let s := (s.insert k.position .key).indentTo k.col .blockMapping k.position
    some (({ s with keys := none :: s.keys.tail, keyAllowed := false }.push .value).skip 1)
  | none =>
    if s.keys.head?.join.any (·.required) then none
    else if s.inFlow then some (((s.allowKey false).push .value).skip 1)
    else if s.keyAllowed then
      some ((((s.indentTo s.cursor.col .blockMapping s.marks.size).allowKey true).push .value).skip 1)
    else none

/-- An anchor, an alias, a tag or a flow scalar: it may begin a key, and a key may not
follow it. -/
def takeWord (s : Outline) (read : Cursor → Option (Mark × Cursor)) : Option Outline := do
  let s ← s.noteKey
  let (m, c) ← read s.cursor
  some { s.push m with cursor := c, keyAllowed := false }

def takeQuotedScalar (s : Outline) (quote : Char) : Option Outline :=
  s.takeWord fun c => do
    let (text, c) ← takeQuoted quote (c.chars.length + 1) #[] c.skip
    some (.scalar .quoted (String.ofList text), c)

def takePlainScalar (s : Outline) : Option Outline := do
  let s ← s.noteKey
  let (text, c, broken) ←
    takePlain s.inFlow (s.indent + 1) (s.cursor.chars.length + 1) #[] .none s.cursor
  some { s.push (.scalar .plain (String.ofList text)) with cursor := c, keyAllowed := broken }

def takeBlockScalar (s : Outline) (literal : Bool) : Option Outline := do
  let s ← s.dropKey
  let (text, c) ← takeBlock literal s.indent s.cursor.skip
  some { s.push (.scalar .block (String.ofList text)) with cursor := c, keyAllowed := true }

/-- The characters that no plain scalar begins with. -/
def isIndicator (c : Char) : Bool := c ∈ "-?:,[]\x7b\x7d#&*!|>\x27\"%@\x60".toList

/-- Cut off what begins with the character `x` at the cursor. -/
def takeMark (s : Outline) (x : Char) : Option Outline :=
  let c := s.cursor
  if c.col == 0 && x == '%' then do
    let s ← (s.unindentTo (-1)).dropKey
    let c ← takeDirective c.skip
    some { (s.allowKey false).push .directive with cursor := c }
  else if c.atMarker then s.takeMarker (if x == '-' then .documentStart else .documentEnd)
  else if x == '[' then s.openFlow .flowSequence
  else if x == '\x7b' then s.openFlow .flowMapping
  else if x == ']' then s.closeFlow .flowSequenceEnd
  else if x == '\x7d' then s.closeFlow .flowMappingEnd
  else if x == ',' then do
    let s ← s.dropKey
    some (((s.allowKey true).push .flowEntry).skip 1)
  else if x == '-' && c.gapAt 1 then s.takeBlockMark .entry .blockSequence true
  else if x == '?' && (s.inFlow || c.gapAt 1) then s.takeBlockMark .key .blockMapping (!s.inFlow)
  else if x == ':' && (s.inFlow || c.gapAt 1) then s.takeValue
  else if x == '*' then
    s.takeWord fun c => (takeAnchor c.skip).map fun (name, c) => (.alias name, c)
  else if x == '&' then
    s.takeWord fun c => (takeAnchor c.skip).map fun (name, c) => (.anchor name, c)
  else if x == '!' then
    s.takeWord fun c => (takeTag s.inFlow c.skip).map fun (text, c) => (.tag text, c)
  else if (x == '|' || x == '>') && !s.inFlow then s.takeBlockScalar (x == '|')
  else if x == '\x27' || x == '"' then s.takeQuotedScalar x
  else if !(c.gapAt 0 || isIndicator x) || (x == '-' && !c.chars.tail.head?.any isSpace) ||
      (!s.inFlow && (x == '?' || x == ':') && !c.gapAt 1) then s.takePlainScalar
  else none

/-- All the marks of a text. Every turn cuts off at least one character. -/
def run : (fuel : Nat) → Outline → Option (Array Mark)
  | 0, _ => none
  | fuel + 1, s =>
    let s := s.seek (s.cursor.chars.length + 1)
    let s := s.unindentTo s.cursor.col
    match s.cursor.head? with
    | none => (s.unindentTo (-1)).dropKey.map (·.marks)
    | some x =>
      match s.takeMark x with
      | some s => run fuel s
      | none => none

end Outline

def outline (text : String) : Option (Array Mark) :=
  let chars := text.toList
  if chars.all isPrintable then (Outline.start chars).run (chars.length + 2) else none

end Polyphony.Yaml
