import Polyphony.Notation.Pitch
import Std.Data.HashMap

/-! # Cached frequencies

The lines of one score share a cache of the pitch texts that have been resolved.
An entry stays as it is once it has been made, and a refused text makes none.
-/
namespace Polyphony.Notation

structure PitchCache where
  entries : Std.HashMap String Float

namespace PitchCache

def empty : PitchCache := ⟨{}⟩

def size (c : PitchCache) : Nat := c.entries.size

def get? (c : PitchCache) (text : String) : Option Float := c.entries[text]?

/-- The frequency of a text, from the cache if the text is there. -/
def resolve (c : PitchCache) (text : String) : Except Cause Float × PitchCache :=
  match c.get? text with
  | some freq => (.ok freq, c)
  | none =>
    match frequency? text with
    | .ok freq => (.ok freq, ⟨c.entries.insert text freq⟩)
    | .error cause => (.error cause, c)

@[simp] theorem get?_empty (text : String) : empty.get? text = none := by
  simp [empty, get?]

@[simp] theorem size_empty : empty.size = 0 := by
  simp [empty, size]

end PitchCache
end Polyphony.Notation
