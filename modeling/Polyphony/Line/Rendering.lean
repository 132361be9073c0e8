import Polyphony.Line.State
import Polyphony.Log
import Polyphony.Notation.Reading

/-! # Lines

A line has a name, a tempo and events. Rendering steps through the events, stops at
the first that fails, and reports each tenth of the events that has been done.
-/
namespace Polyphony

structure Line where
  name : String
  baseTempo : Float
  events : List Event

/-- The first event of a line that failed, counted from zero. -/
structure RenderError where
  line : String
  event : Nat
  cause : EventError

def RenderError.message (e : RenderError) : String :=
  s!"{e.line} (event {e.event}): {e.cause.message}"

namespace Line

def read (name source : String) (baseTempo : Float) : Notation.Reading Line := do
  let events ← Notation.events source
  pure ⟨name, baseTempo, events⟩

def commandCount (l : Line) : Nat := l.events.countP Event.isCommand

def beats (l : Line) : Float := Number.total (l.events.map fun e => e.duration.toFloat)

/-- The tenths of a line that have been reported, and the reports. -/
structure Progress where
  tenths : Nat
  log : Log

/-- Note that `done` of `total` events are done. A new tenth is reported. -/
def Progress.advance (p : Progress) (name : String) (total done : Nat) : Progress :=
  let tenths := done * 10 / total
  if p.tenths < tenths then
    ⟨tenths, p.log ++ [.debug s!"{name}: {tenths * 10}% rendered"]⟩
  else p

/-- Step through the events from index `i` on. The reports made before a failure stay. -/
def renderFrom (name : String) (total : Nat) :
    List Event → Nat → LineState → Progress → Except RenderError Buffer × Log
  | [], _, s, p => (.ok s.buffer, p.log)
  | event :: events, i, s, p =>
    match s.step event with
    | .error cause => (.error ⟨name, i, cause⟩, p.log)
    | .ok s => renderFrom name total events (i + 1) s (p.advance name total (i + 1))

/-- The finished samples of a line, and the reports on the way. -/
def render (l : Line) : Except RenderError Buffer × Log :=
  renderFrom l.name l.events.length l.events 0 (.start l.baseTempo) ⟨0, []⟩

end Line
end Polyphony
