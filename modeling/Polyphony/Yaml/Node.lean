import Polyphony.Yaml.Outline

/-! # The tree of a YAML document

Marks become nodes. An alias stands for the node of its anchor. An alias inside the
node of its own anchor has no finite tree and is kept as a loop.
-/
namespace Polyphony.Yaml

inductive Node where
  | scalar (style : Style) (tag : Option String) (text : String)
  | sequence (tag : Option String) (items : List Node)
  | mapping (tag : Option String) (entries : List (Node × Node))
  | loop

def Node.blank : Node := .scalar .plain none ""

/-- What is left of the marks, and the nodes of the anchors so far, the latest first. -/
structure Growth where
  marks : List Mark
  anchors : List (String × Node)

abbrev Grow := StateT Growth Option

namespace Grow

/-- Whether the next mark is the given one. At the end of the marks none is. -/
def isAt (m : Mark) : Grow Bool := do return (← get).marks.head? == some m

/-- Whether the next mark is one of the given ones, or there is none. -/
def stopsAt (ms : List Mark) : Grow Bool := do return (← get).marks.head?.all (· ∈ ms)

def skip : Grow Unit := modify fun g => { g with marks := g.marks.tail }

def accept (m : Mark) : Grow Bool := do
  if ← isAt m then
    skip
    return true
  else return false

def expect (m : Mark) : Grow Unit := do
  if ← accept m then pure () else failure

def takeAnchor? : Grow (Option String) := do
  match (← get).marks with
  | .anchor name :: _ => skip; return some name
  | _ => return none

def takeTag? : Grow (Option String) := do
  match (← get).marks with
  | .tag text :: _ => skip; return some text
  | _ => return none

/-- An anchor and a tag in either order. -/
def takeProperties : Grow (Option String × Option String) := do
  match ← takeAnchor? with
  | some name => return (some name, ← takeTag?)
  | none =>
    match ← takeTag? with
    | some text => return (← takeAnchor?, some text)
    | none => return (none, none)

/-- Bind an anchor to a loop while its node grows, and to the node from then on. -/
def anchored (anchor : Option String) (grow : Grow Node) : Grow Node :=
  match anchor with
  | none => grow
  | some name => do
    let below := (← get).anchors.length
    modify fun g => { g with anchors := (name, .loop) :: g.anchors }
    let node ← grow
    modify fun g =>
      { g with anchors := g.anchors.modify (g.anchors.length - below - 1) fun _ => (name, node) }
    return node

mutual

/-- A node. The flags admit block collections, and sequences at the indentation of
the mapping around them. A lone exclamation mark is no tag of a scalar. -/
def node : (fuel : Nat) → (block level : Bool) → Grow Node
  | 0, _, _ => failure
  | fuel + 1, block, level => do
    match (← get).marks with
    | .alias name :: _ =>
      skip
      match (← get).anchors.lookup name with
      | some n => return n
      | none => failure
    | _ =>
      let (anchor, tag) ← takeProperties
      anchored anchor do
        match (← get).marks with
        | .entry :: _ => if level then sequenceRest fuel tag #[] else empty anchor tag
        | .scalar style text :: _ => skip; return .scalar style (tag.filter (· ≠ "!")) text
        | .flowSequence :: _ => skip; flowItems fuel tag #[]
        | .flowMapping :: _ => skip; flowEntries fuel tag #[]
        | .blockSequence :: _ => if block then skip; blockItems fuel tag #[] else empty anchor tag
        | .blockMapping :: _ => if block then skip; blockEntries fuel tag #[] else empty anchor tag
        | _ => empty anchor tag

def empty (anchor tag : Option String) : Grow Node :=
  if anchor.isSome || tag.isSome then return .scalar .plain tag "" else failure

/-- A node of a block, which is blank in front of one of the given marks. -/
def blockNode : (fuel : Nat) → (level : Bool) → List Mark → Grow Node
  | 0, _, _ => failure
  | fuel + 1, level, stops => do
    if ← stopsAt stops then return .blank else node fuel true level

/-- A node of a flow collection, which is blank in front of one of the given marks. -/
def flowNode : (fuel : Nat) → List Mark → Grow Node
  | 0, _ => failure
  | fuel + 1, stops => do
    if ← stopsAt stops then return .blank else node fuel false false

def blockItems : (fuel : Nat) → Option String → Array Node → Grow Node
  | 0, _, _ => failure
  | fuel + 1, tag, items => do
    if ← accept .entry then
      let item ← blockNode fuel false [.entry, .blockEnd]
      blockItems fuel tag (items.push item)
    else
      expect .blockEnd
      return .sequence tag items.toList

/-- The items of a sequence that is not indented. It has no end mark. -/
def sequenceRest : (fuel : Nat) → Option String → Array Node → Grow Node
  | 0, _, _ => failure
  | fuel + 1, tag, items => do
    if ← accept .entry then
      let item ← blockNode fuel false [.entry, .key, .value, .blockEnd]
      sequenceRest fuel tag (items.push item)
    else return .sequence tag items.toList

def blockEntries : (fuel : Nat) → Option String → Array (Node × Node) → Grow Node
  | 0, _, _ => failure
  | fuel + 1, tag, entries => do
    let stops := [.key, .value, .blockEnd]
    if ← accept .key then
      let key ← blockNode fuel true stops
      let value ← if ← accept .value then blockNode fuel true stops else pure .blank
      blockEntries fuel tag (entries.push (key, value))
    else
      expect .blockEnd
      return .mapping tag entries.toList

/-- The items of a flow sequence. An item may be a single pair, and a key mark with
nothing behind it takes the mark that follows with it. -/
def flowItems : (fuel : Nat) → Option String → Array Node → Grow Node
  | 0, _, _ => failure
  | fuel + 1, tag, items => do
    if ← accept .flowSequenceEnd then return .sequence tag items.toList
    else
      if !items.isEmpty then expect .flowEntry
      if ← accept .flowSequenceEnd then return .sequence tag items.toList
      else if ← accept .key then
        let stops := [.flowEntry, .flowSequenceEnd]
        let bare ← stopsAt (.value :: stops)
        let key ← if bare then do skip; pure .blank else node fuel false false
        let value ← if ← accept .value then flowNode fuel stops else pure .blank
        flowItems fuel tag (items.push (.mapping none [(key, value)]))
      else
        let item ← node fuel false false
        flowItems fuel tag (items.push item)

/-- The entries of a flow mapping. A node without a key mark is a key without a value. -/
def flowEntries : (fuel : Nat) → Option String → Array (Node × Node) → Grow Node
  | 0, _, _ => failure
  | fuel + 1, tag, entries => do
    if ← accept .flowMappingEnd then return .mapping tag entries.toList
    else
      if !entries.isEmpty then expect .flowEntry
      if ← accept .flowMappingEnd then return .mapping tag entries.toList
      else
        let stops := [.flowEntry, .flowMappingEnd]
        if ← accept .key then
          let key ← flowNode fuel (.value :: stops)
          let value ← if ← accept .value then flowNode fuel stops else pure .blank
          flowEntries fuel tag (entries.push (key, value))
        else
          let key ← node fuel false false
          flowEntries fuel tag (entries.push (key, .blank))

end

def skipEnds : Nat → Grow Unit
  | 0 => pure ()
  | fuel + 1 => do
    if ← accept .documentEnd then skipEnds fuel else pure ()

def skipDirectives : Nat → Grow Bool
  | 0 => pure false
  | fuel + 1 => do
    if ← accept .directive then
      let _ ← skipDirectives fuel
      pure true
    else pure false

def document (fuel : Nat) : Grow (Option Node) := do
  if (← get).marks.isEmpty then return none
  else
    let directives ← skipDirectives fuel
    let explicit ← accept .documentStart
    if directives && !explicit then failure
    let bare ← stopsAt [.directive, .documentStart, .documentEnd]
    let node ← if explicit && bare then pure .blank else node fuel true false
    skipEnds fuel
    if (← get).marks.isEmpty then return some node else failure

end Grow

/-- The document of a text. The outer option is empty for a malformed text or for more
than one document, the inner one for a text without a document. -/
def document? (text : String) : Option (Option Node) := do
  let marks ← outline text
  let (node, _) ← Grow.document (8 * marks.size + 8) ⟨marks.toList, []⟩
  some node

end Polyphony.Yaml
