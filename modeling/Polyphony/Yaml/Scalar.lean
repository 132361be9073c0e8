import Polyphony.Yaml.Cursor

/-! # Scalars

The texts of quoted, plain and block scalars. A single line break inside a quoted or
plain scalar reads as a space, and of several the first is dropped. Every loop takes
at least one character in a turn and is bounded by the length of the text.
-/
namespace Polyphony.Yaml

/-- Spaces and breaks between two rows of a scalar. -/
structure Gap where
  blanks : List Char
  firstBreak : List Char
  moreBreaks : List Char
  broken : Bool

namespace Gap

def none : Gap := ⟨[], [], [], false⟩

def text (g : Gap) : List Char :=
  if g.broken then
    match g.firstBreak with
    | '\n' :: _ => if g.moreBreaks = [] then [' '] else g.moreBreaks
    | _ => g.firstBreak ++ g.moreBreaks
  else g.blanks

/-- Read the gap at a cursor. A tab left of the column `margin` at the start of a line
is refused. -/
def take (margin : Int) : (fuel : Nat) → Gap → Cursor → Option (Gap × Cursor)
  | 0, g, c => some (g, c)
  | fuel + 1, g, c =>
    match c.head? with
    | .none => some (g, c)
    | some x =>
      if isSpace x then
        if g.broken && (c.col : Int) < margin && x == '\t' then .none
        else take margin fuel (if g.broken then g else { g with blanks := g.blanks ++ [x] }) c.skip
      else if isBreak x then
        let (lineBreak, c) := c.takeBreak
        let g := if g.broken then { g with moreBreaks := g.moreBreaks ++ lineBreak }
          else { g with blanks := [], firstBreak := lineBreak, broken := true }
        take margin fuel g c
      else some (g, c)

end Gap

def escapes : List (Char × Char) :=
  [('0', '\x00'), ('a', '\x07'), ('b', '\x08'), ('t', '\t'), ('\t', '\t'), ('n', '\n'),
    ('v', '\x0b'), ('f', '\x0c'), ('r', '\r'), ('e', '\x1b'), (' ', ' '), ('"', '"'), ('/', '/'),
    ('\\', '\\'), ('N', '\u0085'), ('_', '\u00a0'), ('L', '\u2028'), ('P', '\u2029')]

def hexDigit? (c : Char) : Option Nat :=
  if c.isDigit then some (c.toNat - 48)
  else if 'a' ≤ c && c ≤ 'f' then some (c.toNat - 87)
  else if 'A' ≤ c && c ≤ 'F' then some (c.toNat - 55)
  else none

def ofHex? (cs : List Char) : Option Nat :=
  cs.foldlM (fun n c => (hexDigit? c).map (16 * n + ·)) 0

/-- The character of an escape whose backslash has been read, and the place behind. -/
def takeEscape (c : Cursor) : Option (Char × Cursor) := do
  let x ← c.head?
  match escapes.lookup x with
  | some y => some (y, c.skip)
  | none =>
    let width ← [('x', 2), ('u', 4), ('U', 8)].lookup x
    let digits := (c.chars.drop 1).take width
    let n ← if digits.length = width then ofHex? digits else none
    if n.isValidChar then some (Char.ofNat n, c.skipMany (width + 1)) else none

/-- A row of a quoted scalar, up to a gap or the closing quote. The flag tells of a
break that is escaped. -/
def takeQuotedRow (quote : Char) : (fuel : Nat) → Array Char → Cursor →
    Option (Array Char × Cursor × Bool)
  | 0, done, c => some (done, c, false)
  | fuel + 1, done, c =>
    if c.gapAt 0 then some (done, c, false)
    else match c.chars with
      | x :: rest =>
        if quote == '\x27' && x == quote && rest.head? == some quote then
          takeQuotedRow quote fuel (done.push quote) (c.skipMany 2)
        else if x == quote then some (done, c, false)
        else if quote == '"' && x == '\\' then
          if rest.head?.any isBreak then some (done, (c.skip.takeBreak).2, true)
          else match takeEscape c.skip with
            | some (y, c) => takeQuotedRow quote fuel (done.push y) c
            | none => none
        else takeQuotedRow quote fuel (done.push x) c.skip
      | [] => some (done, c, false)

def takeQuoted (quote : Char) : (fuel : Nat) → Array Char → Cursor → Option (List Char × Cursor)
  | 0, _, _ => none
  | fuel + 1, done, c => do
    if c.atMarker || c.chars.isEmpty then none
    else
      let (done, c, escaped) ← takeQuotedRow quote c.chars.length done c
      if !escaped && c.isAt quote then some (done.toList, c.skip)
      else
        let (gap, c) ← Gap.take 0 c.chars.length { Gap.none with broken := escaped } c
        takeQuoted quote fuel (done ++ gap.text) c

def isFlowMark (c : Char) : Bool :=
  c == ',' || c == '[' || c == ']' || c == '\x7b' || c == '\x7d'

/-- A row of a plain scalar, up to a gap or a character that ends the scalar. In a flow
collection a colon right before a mark of the collection is refused. -/
def takePlainRow (flow : Bool) : (fuel : Nat) → Array Char → Cursor → Option (Array Char × Cursor)
  | 0, done, c => some (done, c)
  | fuel + 1, done, c =>
    if c.gapAt 0 then some (done, c)
    else match c.chars with
      | x :: rest =>
        if flow && x == ':' && rest.head?.any (fun y => isFlowMark y || y == '?') then none
        else if (x == ':' && c.gapAt 1) || (flow && isFlowMark x) then some (done, c)
        else takePlainRow flow fuel (done.push x) c.skip
      | [] => some (done, c)

/-- A plain scalar of a block indented to `margin`. The flag tells whether it ends
behind a line break. -/
def takePlain (flow : Bool) (margin : Int) : (fuel : Nat) → Array Char → Gap → Cursor →
    Option (List Char × Cursor × Bool)
  | 0, done, gap, c => some (done.toList, c, gap.broken)
  | fuel + 1, done, gap, c => do
    if c.atMarker || c.isAt '#' then some (done.toList, c, gap.broken)
    else
      let (row, after) ← takePlainRow flow c.chars.length #[] c
      let (done, gap) := if row.isEmpty then (done, gap) else (done ++ gap.text ++ row, Gap.none)
      if !after.head?.any (fun x => isSpace x || isBreak x) then
        some (done.toList, after, gap.broken)
      else
        let (gap, after) ← gap.take margin after.chars.length after
        if !flow && (after.col : Int) < margin then some (done.toList, after, gap.broken)
        else takePlain flow margin fuel done gap after

inductive Chomping where
  | strip | clip | keep
deriving DecidableEq, Repr

/-- The header of a block scalar: an optional chomping and an optional indentation, in
either order. -/
def takeHeader (c : Cursor) : Option (Chomping × Nat × Cursor) := do
  let chomping (c : Cursor) : Option Chomping :=
    if c.isAt '+' then some .keep else if c.isAt '-' then some .strip else none
  let indent (c : Cursor) : Option Nat := c.head?.bind fun x => if x.isDigit then hexDigit? x else none
  let (chomp, width, c) := match chomping c with
    | some chomp => match indent c.skip with
      | some width => (chomp, some width, c.skipMany 2)
      | none => (chomp, none, c.skip)
    | none => match indent c with
      | some width => match chomping c.skip with
        | some chomp => (chomp, some width, c.skipMany 2)
        | none => (.clip, some width, c.skip)
      | none => (.clip, none, c)
  if width = some 0 then none else some (chomp, width.getD 0, c)

/-- Breaks and indentation before a row of a block scalar. An indentation of zero is
not known yet; `deepest` is the deepest column seen. -/
def takeIndent (indent : Nat) : (fuel deepest : Nat) → List Char → Cursor →
    Option (Nat × List Char × Cursor)
  | 0, deepest, breaks, c => some (deepest, breaks, c)
  | fuel + 1, deepest, breaks, c =>
    let spaces := (c.takeWhile (· == ' ')).1.length
    let width := if indent = 0 then spaces else min spaces (indent - c.col)
    let c := c.skipMany width
    let deepest := max deepest c.col
    if (indent = 0 || c.col < indent) && c.isAt '\t' then none
    else if c.head?.any isBreak then
      let (lineBreak, c) := c.takeBreak
      takeIndent indent fuel deepest (breaks ++ lineBreak) c
    else some (deepest, breaks, c)

/-- The rows of a block scalar. `blank` tells whether the row before starts with a
space; then no break is folded. -/
def takeRows (literal : Bool) (indent : Nat) : (fuel : Nat) → (done : Array Char) →
    (lineBreak breaks : List Char) → (blank : Bool) → Cursor →
    Option (Array Char × List Char × List Char × Cursor)
  | 0, done, lineBreak, breaks, _, c => some (done, lineBreak, breaks, c)
  | fuel + 1, done, lineBreak, breaks, blank, c =>
    if c.col == indent && !c.chars.isEmpty then do
      let opens := c.head?.any isSpace
      let done := if !literal && lineBreak.head? == some '\n' && !blank && !opens then
          if breaks = [] then done.push ' ' else done
        else done ++ lineBreak
      let (row, c) := c.takeWhile (!isBreak ·)
      let (lineBreak, c) := c.takeBreak
      let done := done ++ breaks ++ row
      let (_, breaks, c) ← takeIndent indent c.chars.length 0 [] c
      takeRows literal indent fuel done lineBreak breaks opens c
    else some (done, lineBreak, breaks, c)

/-- A block scalar behind its indicator, in a block that is indented to `parent`. -/
def takeBlock (literal : Bool) (parent : Int) (c : Cursor) : Option (List Char × Cursor) := do
  let (chomp, width, c) ← takeHeader c
  let c := c.skipWhile isSpace
  let c := if c.isAt '#' then c.skipWhile (!isBreak ·) else c
  if !c.lineEnds then none
  else
    let c := c.takeBreak.2
    let stated := if width = 0 then 0 else (max parent 0).toNat + width
    let (deepest, breaks, c) ← takeIndent stated (c.chars.length + 1) 0 [] c
    let indent := if stated = 0 then max (max deepest (parent + 1).toNat) 1 else stated
    let (done, lineBreak, breaks, c) ← takeRows literal indent (c.chars.length + 1) #[] [] breaks false c
    let tail := match chomp with
      | .strip => []
      | .clip => lineBreak
      | .keep => lineBreak ++ breaks
    some (done.toList ++ tail, c)

end Polyphony.Yaml
