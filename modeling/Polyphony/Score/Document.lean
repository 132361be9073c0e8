import Polyphony.Score.Performance
import Polyphony.Yaml.Meaning

/-! # Score documents

A sheet is written as a YAML document: a mapping with the tempo and the lines, each
line a mapping with its name, tempo and notation. Other keys are left aside.
-/
namespace Polyphony
open Yaml

/-- Whether a node may stand in a composition, even where it is left aside: its scalars
have a meaning, no integer is wide, no tag is local, and its collections nest at most
`depth` deep. -/
def Composition.fits : (depth : Nat) → Node → Bool
  | _, .scalar style tag t => (meaning? style tag t).any (· ≠ .wide)
  | depth + 1, .sequence tag ns => !isLocal tag && ns.all (Composition.fits depth)
  | depth + 1, .mapping tag es =>
    !isLocal tag && es.all fun (key, n) => Composition.fits depth key && Composition.fits depth n
  | _, _ => false

/-- How deep a composition may nest. -/
def Composition.depthBound : Nat := 125

/-- The fields of a repeated group. A key may be the name of its field or its number. -/
inductive GroupField where
  | times | parts | other

def GroupField.ofNode? : Node → Option GroupField
  | .scalar style tag text =>
    match meaning? style tag text with
    | some .text =>
      if text = "repeat" then some .times else if text = "parts" then some .parts else some .other
    | some (.count n) => some (if n = 0 then .times else if n = 1 then .parts else .other)
    | _ => none
  | _ => none

def Fragment.times? : Node → Option Nat
  | .scalar style tag t =>
    match meaning? style tag t with
    | some (.count n) => some n
    | some (.negative 0) => some 0
    | _ => none
  | _ => none

def Fragment.textOf? : Node → Option String
  | .scalar style tag t => if meaning? style tag t = some .text then some t else none
  | _ => none

mutual

/-- A text, or a mapping with the count and the parts of a group. -/
def Fragment.ofNode? : Node → Option Fragment
  | .mapping _ es => do
    match ← Fragment.fields? es with
    | (some times, some parts) => some (.group times parts)
    | _ => none
  | n => (Fragment.textOf? n).map .text

/-- The count and the parts among the entries of a mapping. Neither may come twice. -/
def Fragment.fields? : List (Node × Node) → Option (Option Nat × Option (List Fragment))
  | [] => some (none, none)
  | (key, n) :: es => do
    let (times, parts) ← Fragment.fields? es
    match ← GroupField.ofNode? key with
    | .times => if times.isSome then none else some (some (← Fragment.times? n), parts)
    | .parts => if parts.isSome then none else some (times, some (← Fragment.parts? n))
    | .other => some (times, parts)

def Fragment.parts? : Node → Option (List Fragment)
  | .sequence _ ns => Fragment.ofNodes? ns
  | _ => none

def Fragment.ofNodes? : List Node → Option (List Fragment)
  | [] => some []
  | n :: ns => do some ((← Fragment.ofNode? n) :: (← Fragment.ofNodes? ns))

end

def Composition.ofNode? (n : Node) : Option Composition :=
  if Composition.fits Composition.depthBound n then
    ((Fragment.textOf? n).map .text).or ((Fragment.parts? n).map .fragments)
  else none

def Part.ofNode? (n : Node) : Option Part := do
  let es ← n.record? ["name", "tempo", "notation"]
  let name ← Node.field? es "name" (Node.optional? Node.text?)
  let tempo ← Node.field? es "tempo" (Node.optional? Node.float?)
  let composition ← Node.field? es "notation" Composition.ofNode?
  some ⟨name.join, tempo.join, ← composition⟩

def Sheet.ofNode? (n : Node) : Option Sheet := do
  let es ← n.record? ["tempo", "lines"]
  let tempo ← Node.field? es "tempo" (Node.optional? Node.float?)
  let parts ← Node.field? es "lines" fun lines => do (← lines.items?).mapM Part.ofNode?
  some ⟨tempo.join, parts.getD []⟩

/-- The sheet that a text holds. A text without a document is an empty sheet. -/
def Sheet.ofText? (text : String) : Option Sheet := do
  match ← document? text with
  | some n => Sheet.ofNode? n
  | none => some Sheet.empty

/-- Read a score from its text, by a reader of sheets. -/
def Score.ofTextBy (read : String → Option Sheet) (text : String) (defaultTempo : Float) :
    Except ScoreError Score × Log :=
  match read text with
  | some sheet => Score.ofSheet sheet defaultTempo
  | none => (.error .malformed, [])

def Score.ofText (text : String) (defaultTempo : Float) : Except ScoreError Score × Log :=
  Score.ofTextBy Sheet.ofText? text defaultTempo

end Polyphony
