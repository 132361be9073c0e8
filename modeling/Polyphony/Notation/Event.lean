import Polyphony.Beats
import Polyphony.Effect.Rack

/-! # Events

A line is a list of events in the order of its composition. A note may sound any
number of frequencies at once, and a rest sounds none. Commands take no time.
-/
namespace Polyphony

structure Note where
  freqs : List Float
  duration : Beats

def Note.isRest (n : Note) : Bool := n.freqs.isEmpty

inductive Command where
  | removeEffect (id : EffectId)
  | setEnvelope (envelope : Envelope)
  | setEcho (amplitude beatDelay : Float)
  | setInstrument (name : String)
  | setTempo (ratio : Float)
  | setDynamics (scale : Float)
  | setCents (cents : Float)

inductive Event where
  | note (note : Note)
  | command (command : Command)

namespace Event

def duration : Event → Beats
  | .note n => n.duration
  | .command _ => .zero

def isCommand : Event → Bool
  | .note _ => false
  | .command _ => true

end Event
end Polyphony
