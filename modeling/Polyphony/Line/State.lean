import Polyphony.Notation.Event
import Polyphony.Number.Decimal
import Polyphony.Sound.Preset

/-! # The state of a line

A line carries its tempo, dynamics, tuning, instrument and effects from event to
event, and the samples so far. A note appends its samples and then runs the effects
over the buffer. An event that fails gives no new state.
-/
namespace Polyphony

inductive EventError where
  | unknownInstrument (name : String)
  | tooLong (beats : Beats) (bpm : Float)

def EventError.message : EventError → String
  | .unknownInstrument name => s!"unknown instrument '{name}'"
  | .tooLong beats bpm =>
    s!"{beats.text} beats at {Number.write bpm} bpm exceeds {maxEventFrames} frames"

structure LineState where
  baseTempo : Float
  bpm : Float
  dynamics : Float
  cents : Float
  instrument : Preset
  rack : Rack
  buffer : Buffer

namespace LineState

def start (baseTempo : Float) : LineState where
  baseTempo := baseTempo
  bpm := baseTempo
  dynamics := 1
  cents := 0
  instrument := .sine
  rack := .empty
  buffer := #[]

/-- Carry out a command. A tempo ratio is always relative to the tempo of the line,
and an echo keeps the frames per beat of the moment it is installed. -/
def execute (s : LineState) : Command → Except EventError LineState
  | .setTempo ratio => .ok { s with bpm := s.baseTempo * ratio }
  | .setDynamics scale => .ok { s with dynamics := scale }
  | .setCents cents => .ok { s with cents := cents }
  | .setInstrument name =>
    match Preset.ofName? name with
    | some instrument => .ok { s with instrument := instrument }
    | none => .error (.unknownInstrument name)
  | .setEnvelope envelope => .ok { s with rack := s.rack.setEnvelope envelope }
  | .setEcho amplitude beatDelay =>
    let echo := Echo.install amplitude beatDelay (framesPerBeat s.bpm) s.buffer.size
    .ok { s with rack := s.rack.setEcho echo }
  | .removeEffect id => .ok { s with rack := s.rack.remove id }

/-- One sample of a chord: the tones added from first to last, then scaled. -/
def voice (instrument : Preset) (dynamics : Float) (freqs : List Float) (t : Nat) : Float :=
  Number.total (freqs.map fun f => instrument.sample f t) * dynamics

/-- The frequencies of a note in the tuning of the line. -/
def tuned (cents : Float) (freqs : List Float) : List Float :=
  let shift := Float.exp2 (cents / 1200.0)
  freqs.map (· * shift)

def raw (s : LineState) (freqs : List Float) (frames : Nat) : Buffer :=
  let freqs := tuned s.cents freqs
  Array.ofFn fun t : Fin frames => voice s.instrument s.dynamics freqs t

/-- Put samples behind the buffer and run the effects for the event that they make. -/
def extend (s : LineState) (samples : Buffer) : LineState :=
  let ⟨baseTempo, bpm, dynamics, cents, instrument, rack, buffer⟩ := s
  let start := buffer.size
  ⟨baseTempo, bpm, dynamics, cents, instrument, rack, rack.apply (buffer ++ samples) start⟩

def play (s : LineState) (note : Note) : Except EventError LineState :=
  match note.duration.toFrames s.bpm with
  | none => .error (.tooLong note.duration s.bpm)
  | some frames => .ok (s.extend (s.raw note.freqs frames))

def step (s : LineState) : Event → Except EventError LineState
  | .command command => s.execute command
  | .note note => s.play note

end LineState
end Polyphony
