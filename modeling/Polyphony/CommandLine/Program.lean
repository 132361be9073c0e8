import Polyphony.CommandLine.Files
import Polyphony.CommandLine.Request
import Polyphony.Score.Document
import Polyphony.Settings
import Polyphony.Wave

/-! # The program

A request is answered by what is printed and by an exit code. Rendering writes a file,
checking reports every line, and neither stops at settings that cannot be read.
-/
namespace Polyphony.CommandLine

/-- What the program leaves: its exit code and its two outputs. -/
structure Answer where
  code : Nat
  output : String
  errors : String

inductive Failure where
  | unreadable (e : FileError)
  | unwritable (e : FileError)
  | score (e : ScoreError)

def Failure.message : Failure → String
  | .unreadable e => s!"io error: {e.text}"
  | .unwritable e => s!"wav error: {e.text}"
  | .score e => e.message

namespace Answer

def printed (output : String) : Answer := ⟨0, output, ""⟩
def failed (e : Failure) : Answer := ⟨1, "", s!"error: {e.message}\n"⟩

def usage : String :=
  "usage:\n" ++
  "  render SCORE [-o FILE] [-t COUNT]  render a score to a WAV file\n" ++
  "  check SCORE                        report the lines of a score\n" ++
  "  instruments                        list the instruments\n"

def misused : Answer := ⟨2, "", usage⟩

end Answer

def report (l : Line) : String :=
  s!"{l.name}: {l.events.length} events, {Number.write l.beats} beats at " ++
    s!"{Number.write l.baseTempo} bpm\n"

namespace Program
variable {m : Type → Type} [Monad m]

def settingsPath (home : String) : String := home ++ "/.cantus/settings.yaml"

/-- The settings of a user, or the defaults where there are none or none can be read. -/
def settings (files : Files m) (home : String) : m Settings := do
  match ← files.readText (settingsPath home) with
  | .ok text => return (Settings.ofText? text).getD .default
  | .error _ => return .default

/-- The score of a file, whose text is read by a reader of sheets. -/
def scoreBy (read : String → Option Sheet) (files : Files m) (path : String)
    (defaultTempo : Float) : m (Except Failure Score) := do
  match ← files.readText path with
  | .ok text =>
    match (Score.ofTextBy read text defaultTempo).1 with
    | .ok s => return .ok s
    | .error e => return .error (.score e)
  | .error e => return .error (.unreadable e)

def score (files : Files m) (path : String) (defaultTempo : Float) : m (Except Failure Score) :=
  scoreBy Sheet.ofText? files path defaultTempo

/-- Render a score and write it. The number of threads changes no sample. -/
def render (files : Files m) (home path : String) (output : Option String) : m Answer := do
  match ← score files path (← settings files home).defaultTempo with
  | .error e => return .failed e
  | .ok s =>
    match s.perform.1 with
    | .error e => return .failed (.score e)
    | .ok mixdown =>
      let bytes := (Wave.encode mixdown.samples.toList).toByteArray
      match ← files.write (output.getD (wavePath path)) bytes with
      | .ok () => return .printed ""
      | .error e => return .failed (.unwritable e)

def check (files : Files m) (home path : String) : m Answer := do
  match ← score files path (← settings files home).defaultTempo with
  | .error e => return .failed e
  | .ok s => return .printed (String.join (s.lines.map report))

def instruments : String := String.join (Preset.all.map fun p => p.name ++ "\n")

def run (files : Files m) (home : String) (args : List String) : m Answer :=
  match Request.ofArguments? args with
  | some (.render path output _) => render files home path output
  | some (.check path) => check files home path
  | some .instruments => return .printed instruments
  | some .help => return .printed Answer.usage
  | none => return .misused

end Program
end Polyphony.CommandLine
