/-! # Fragments

The composition of a line may be given in fragments: texts, and groups that are
repeated. Its text is the fragments one after another.
-/
namespace Polyphony

inductive Fragment where
  | text (text : String)
  | group (times : Nat) (parts : List Fragment)

/-- A text a number of times. An empty text takes no time, however often it comes. -/
def copies (times : Nat) (text : String) : String :=
  if text = "" then "" else Nat.repeat (· ++ text) times ""

mutual

def Fragment.expand : Fragment → String
  | .text t => t
  | .group times parts => copies times (Fragment.expandAll parts)

def Fragment.expandAll : List Fragment → String
  | [] => ""
  | part :: parts => part.expand ++ Fragment.expandAll parts

end

/-- The composition of a line as it is given: one text, or a list of fragments. -/
inductive Composition where
  | text (text : String)
  | fragments (fragments : List Fragment)

def Composition.expand : Composition → String
  | .text t => t
  | .fragments parts => Fragment.expandAll parts

end Polyphony
