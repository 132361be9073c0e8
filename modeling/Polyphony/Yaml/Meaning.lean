import Polyphony.Number.Numeral
import Polyphony.Yaml.Node

/-! # What scalars mean

A plain scalar is null, a boolean, an integer, a float or a text, by its spelling
alone, unless a tag says which. Where a text or a float is wanted, the spelling is
read as that directly.
-/
namespace Polyphony.Yaml

inductive Meaning where
  | null
  | boolean
  | count (n : Nat)
  | negative (n : Int)
  | wide
  | float
  | text
deriving DecidableEq, Repr

def isNull (cs : List Char) : Bool :=
  cs ∈ ["".toList, "~".toList, "null".toList, "Null".toList, "NULL".toList]

def isBoolean (cs : List Char) : Bool :=
  cs ∈ ["true", "True", "TRUE", "false", "False", "FALSE"].map String.toList

/-- Digits behind a zero are a text and no integer. -/
def isPadded (cs : List Char) : Bool :=
  match (Number.signed cs).2 with
  | '0' :: d :: ds => (d :: ds).all Char.isDigit
  | _ => false

def ofBase? (base : Nat) (cs : List Char) : Option Nat :=
  if cs.isEmpty then none
  else cs.foldlM (fun n c => (hexDigit? c).bind fun d =>
    if d < base then some (base * n + d) else none) 0

/-- A natural in decimal, or in another base behind its mark. -/
def natural? (cs : List Char) : Option Nat :=
  match cs with
  | '0' :: 'x' :: digits => ofBase? 16 digits
  | '0' :: 'o' :: digits => ofBase? 8 digits
  | '0' :: 'b' :: digits => ofBase? 2 digits
  | _ => if isPadded cs then none else ofBase? 10 cs

def unsigned? (cs : List Char) : Option Nat :=
  match cs with
  | '+' :: body => natural? body
  | _ => natural? cs

def integer? (cs : List Char) : Option Int :=
  match cs with
  | '-' :: body => (natural? body).map fun n => -Int.ofNat n
  | _ => (unsigned? cs).map Int.ofNat

/-- A float: an infinity or NaN by its YAML name, or a finite decimal. -/
def float? (cs : List Char) : Option Float :=
  let unsigned := match cs with
    | '+' :: body => body
    | _ => cs
  let names := fun name : String => cs = name.toList
  if unsigned ∈ [".inf", ".Inf", ".INF"].map String.toList then some (1 / 0)
  else if names "-.inf" ∨ names "-.Inf" ∨ names "-.INF" then some (-1 / 0)
  else if names ".nan" ∨ names ".NaN" ∨ names ".NAN" then some (0 / 0)
  else match cs, unsigned with
    | '+' :: _, '+' :: _ | '+' :: _, '-' :: _ => none
    | _, _ => Number.finite? unsigned

/-- The meaning of an integer. It is wide if 64 bits do not hold it but 128 bits do. -/
def integerMeaning? (cs : List Char) : Option Meaning :=
  (integer? cs).bind fun n =>
    if n < Number.countBound ∧ cs.head? ≠ some '-' then some (.count n.toNat)
    else if -(1 <<< 63 : Nat) ≤ n ∧ n ≤ 0 then some (.negative n)
    else if -(1 <<< 127 : Nat) ≤ n ∧ n < (1 <<< 128 : Nat) then some .wide
    else none

def plainMeaning (cs : List Char) : Meaning :=
  if isNull cs then .null
  else if isBoolean cs then .boolean
  else match integerMeaning? cs with
    | some m => m
    | none => if !isPadded cs && (float? cs).isSome then .float else .text

/-- Whether a tag belongs to the document alone. -/
def isLocal (tag : Option String) : Bool := tag.any fun t => t.toList.head? == some '!'

/-- The meaning of a scalar by its style, tag and text. A standard tag asks for its own
kind of value in any style. A local tag gives no meaning. -/
def meaning? (style : Style) (tag : Option String) (text : String) : Option Meaning :=
  let cs := text.toList
  if isLocal tag then none
  else if tag = some (standardTag "bool") then if isBoolean cs then some .boolean else none
  else if tag = some (standardTag "int") then integerMeaning? cs
  else if tag = some (standardTag "float") then (float? cs).map fun _ => .float
  else if tag = some (standardTag "null") then if cs ≠ [] ∧ isNull cs then some .null else none
  else some (if tag = none ∧ style = .plain then plainMeaning cs else .text)

namespace Node

def text? : Node → Option String
  | scalar _ _ t => some t
  | _ => none

def float? : Node → Option Float
  | scalar .plain _ t => Yaml.float? t.toList
  | _ => none

def count? : Node → Option Nat
  | scalar .plain _ t => (unsigned? t.toList).filter (· < Number.countBound)
  | _ => none

/-- A node that may be null. A tag other than the one for null makes it a value. -/
def optional? (read : Node → Option α) (n : Node) : Option (Option α) :=
  match n with
  | scalar .plain none t => if isNull t.toList then some none else (read n).map some
  | scalar .plain (some tag) t =>
    if tag = standardTag "null" then
      if t ≠ "" ∧ isNull t.toList then some none else none
    else (read n).map some
  | _ => (read n).map some

def isBlank : Node → Bool
  | scalar .plain _ t => t.isEmpty
  | _ => false

def items? (n : Node) : Option (List Node) :=
  match n with
  | sequence _ ns => some ns
  | _ => if n.isBlank then some [] else none

/-- The entries of a mapping by the texts of their keys, none where nothing is written.
No key of the given ones may come twice. -/
def record? (known : List String) (n : Node) : Option (List (String × Node)) := do
  let entries ← match n with
    | mapping _ es => es.mapM fun (k, v) => k.text?.map (·, v)
    | _ => if n.isBlank then some [] else none
  if known.all fun key => (entries.filter (·.1 = key)).length ≤ 1 then some entries else none

def field? (entries : List (String × Node)) (key : String) (read : Node → Option α) :
    Option (Option α) :=
  match entries.lookup key with
  | some n => (read n).map some
  | none => some none

end Node
end Polyphony.Yaml
