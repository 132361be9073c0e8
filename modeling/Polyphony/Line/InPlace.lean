import Polyphony.Line.State

/-! # Lines in place

The events of a line once more, carried out on one state that is written to field by field and
sample by sample. Nothing is taken back: what an event has written stays, also when the event
fails after it.
-/
namespace Polyphony.InPlace

/-- A piece of work on the state of a line. It may fail in the middle. -/
abbrev Work := EStateM EventError LineState

def execute : Command → Work Unit
  | .setTempo ratio => modify fun s => { s with bpm := s.baseTempo * ratio }
  | .setDynamics scale => modify fun s => { s with dynamics := scale }
  | .setCents cents => modify fun s => { s with cents := cents }
  | .setInstrument name =>
    match Preset.ofName? name with
    | some instrument => modify fun s => { s with instrument := instrument }
    | none => throw (.unknownInstrument name)
  | .setEnvelope envelope => modify fun s => { s with rack := s.rack.setEnvelope envelope }
  | .setEcho amplitude beatDelay => do
    let s ← get
    let echo := Echo.install amplitude beatDelay (framesPerBeat s.bpm) s.buffer.size
    modify fun s => { s with rack := s.rack.setEcho echo }
  | .removeEffect id => modify fun s => { s with rack := s.rack.remove id }

/-- Put the first samples of a chord behind the buffer, one after another. -/
def sound (freqs : List Float) : (count : Nat) → Work Unit
  | 0 => pure ()
  | count + 1 => do
    sound freqs count
    modify fun s =>
      { s with buffer := s.buffer.push (LineState.voice s.instrument s.dynamics freqs count) }

def play (note : Note) : Work Unit := do
  let s ← get
  match note.duration.toFrames s.bpm with
  | none => throw (.tooLong note.duration s.bpm)
  | some frames =>
    sound (LineState.tuned s.cents note.freqs) frames
    modify fun t => { t with buffer := t.rack.apply t.buffer s.buffer.size }

def step : Event → Work Unit
  | .command command => execute command
  | .note note => play note

def run : List Event → Work Unit
  | [] => pure ()
  | event :: events => do
    step event
    run events

/-- Carry out all events, and go on behind one that fails with what it has left. The result
has the events that succeeded and the state at the end. -/
def attempt : List Event → LineState → List Event × LineState
  | [], s => ([], s)
  | event :: events, s =>
    match step event s with
    | .ok () t =>
      let (succeeded, u) := attempt events t
      (event :: succeeded, u)
    | .error _ t => attempt events t

end Polyphony.InPlace
