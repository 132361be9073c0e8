import Polyphony.Effect.Echo

/-! # The effects of a line

A line holds at most one envelope and one echo. The envelope runs first, so that the
echo repeats the shaped samples.
-/
namespace Polyphony

inductive EffectId where
  | envelope | echo
deriving DecidableEq, Repr

def EffectId.label : EffectId → String
  | .envelope => "ADSR"
  | .echo => "ECHO"

structure Rack where
  envelope : Option Envelope
  echo : Option Echo

namespace Rack

def empty : Rack := ⟨none, none⟩

def isEmpty (r : Rack) : Bool := r.envelope.isNone && r.echo.isNone

def setEnvelope (r : Rack) (e : Envelope) : Rack := { r with envelope := some e }

def setEcho (r : Rack) (e : Echo) : Rack := { r with echo := some e }

def remove (r : Rack) : EffectId → Rack
  | .envelope => { r with envelope := none }
  | .echo => { r with echo := none }

def applyEnvelope (r : Rack) (b : Buffer) (start : Nat) : Buffer :=
  match r.envelope with
  | some e => e.apply b start
  | none => b

def applyEcho (r : Rack) (b : Buffer) (start : Nat) : Buffer :=
  match r.echo with
  | some e => e.apply b start
  | none => b

/-- Run the effects over a buffer for an event that begins at `start`. -/
def apply (r : Rack) (b : Buffer) (start : Nat) : Buffer :=
  r.applyEcho (r.applyEnvelope b start) start

end Rack
end Polyphony
