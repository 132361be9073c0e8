import Polyphony.Effect.Guarded
import Polyphony.Line.Rendering

/-! # Guarded lines

The walk over the events of a line once more, with a guard at each step of a machine whose indices
have 64 bits. The reports alone can be under guard, or the notes as well. A guard that fires ends
the walk without a result.
-/
namespace Polyphony

namespace Index

def product? (i j : Nat) : Option Nat := if i * j < Number.countBound then some (i * j) else none

def quotient? (i j : Nat) : Option Nat := if j = 0 then none else some (i / j)

end Index

namespace LineState

def play? (s : LineState) (note : Note) : Option (Except EventError LineState) :=
  match note.duration.toFrames s.bpm with
  | none => some (.error (.tooLong note.duration s.bpm))
  | some frames => do
    -- the buffer grows before the effects run
    let _ ← Index.sum? s.buffer.size frames
    let (buffer, _) ← s.rack.run? (s.buffer ++ s.raw note.freqs frames) s.buffer.size
    some (.ok { s with buffer })

/-- Advance by one event like `step`, under guard. -/
def step? (s : LineState) : Event → Option (Except EventError LineState)
  | .command command => some (s.execute command)
  | .note note => s.play? note

end LineState

namespace Line

def Progress.advance? (p : Progress) (name : String) (total done : Nat) : Option Progress := do
  let tenths ← Index.quotient? (← Index.product? done 10) total
  if p.tenths < tenths then
    let percent ← Index.product? tenths 10
    some ⟨tenths, p.log ++ [.debug s!"{name}: {percent}% rendered"]⟩
  else some p

/-- Step through the events like `renderFrom`, by steps that may be under guard. -/
def renderFrom? (next : LineState → Event → Option (Except EventError LineState)) (name : String)
    (total : Nat) :
    List Event → Nat → LineState → Progress → Option (Except RenderError Buffer × Log)
  | [], _, s, p => some (.ok s.buffer, p.log)
  | event :: events, i, s, p => do
    match ← next s event with
    | .error cause => some (.error ⟨name, i, cause⟩, p.log)
    | .ok s =>
      let done ← Index.sum? i 1
      renderFrom? next name total events done s (← p.advance? name total done)

/-- Render like `render`, with the reports under guard. -/
def render? (l : Line) : Option (Except RenderError Buffer × Log) :=
  renderFrom? (fun s event => some (s.step event)) l.name l.events.length l.events 0
    (.start l.baseTempo) ⟨0, []⟩

/-- Render like `render`, with the notes and the reports under guard. -/
def renderGuarded? (l : Line) : Option (Except RenderError Buffer × Log) :=
  renderFrom? LineState.step? l.name l.events.length l.events 0 (.start l.baseTempo) ⟨0, []⟩

end Line
end Polyphony
