import Polyphony.Score.Fragment

/-! # Score sheets

A sheet is a score as it is written down: a tempo for the whole and a list of parts.
A part may have a name and a tempo of its own.
-/
namespace Polyphony

structure Part where
  name : Option String
  tempo : Option Float
  composition : Composition

structure Sheet where
  tempo : Option Float
  parts : List Part

def Sheet.empty : Sheet := ⟨none, []⟩

/-- The name of a line that has none, by its position. -/
def positionName (index : Nat) : String := s!"line {index}"

structure Draft where
  name : String
  tempo : Float
  source : String

/-- The lines that a sheet asks for. A part without a tempo takes that of the sheet,
and a sheet without one takes the default. -/
def Sheet.drafts (sheet : Sheet) (defaultTempo : Float) : List Draft :=
  let tempo := sheet.tempo.getD defaultTempo
  sheet.parts.mapIdx fun index part =>
    ⟨part.name.getD (positionName index), part.tempo.getD tempo, part.composition.expand⟩

def draftsOf (compositions : List (String × Float)) : List Draft :=
  compositions.mapIdx fun index (source, tempo) => ⟨positionName index, tempo, source⟩

end Polyphony
