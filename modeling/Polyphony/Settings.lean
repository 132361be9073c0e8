import Polyphony.Yaml.Meaning

/-! # Settings

The settings say how many threads to render with and which tempo a score without one
takes. They are written as a YAML mapping, and what is not written has a default.
-/
namespace Polyphony
open Yaml

/-- Zero threads leave the number open. -/
structure Settings where
  threads : Nat
  defaultTempo : Float

namespace Settings

def default : Settings := ⟨0, 120⟩

def ofNode? (n : Node) : Option Settings := do
  let es ← n.record? ["threads", "default_tempo"]
  let threads ← Node.field? es "threads" Node.count?
  let tempo ← Node.field? es "default_tempo" Node.float?
  some ⟨threads.getD default.threads, tempo.getD default.defaultTempo⟩

/-- The settings that a text holds. A text without a document holds the defaults. -/
def ofText? (text : String) : Option Settings := do
  match ← document? text with
  | some n => ofNode? n
  | none => some default

end Settings
end Polyphony
