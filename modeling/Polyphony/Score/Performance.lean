import Polyphony.Line.Rendering
import Polyphony.Mix.Mixdown
import Polyphony.Score.Sheet

/-! # Scores

A score is a list of lines. Its lines are read in order with one pitch cache, and the
first that cannot be read decides the error. Performing renders every line and mixes.
-/
namespace Polyphony

/-- Why a score cannot be read or performed. Lines count from zero. -/
inductive ScoreError where
  | malformed
  | line (index : Nat) (name : String) (error : Notation.Error)
  | render (error : RenderError)
  | tempo (index : Nat) (tempo : Float)

def ScoreError.message : ScoreError → String
  | .malformed => "invalid score file"
  | .line index name error => s!"line {index} ({name}): {error.text}"
  | .render e => s!"render failed: {e.message}"
  | .tempo index bpm =>
    s!"line {index}: tempo must be a positive number, got {Number.write bpm}"

structure Score where
  lines : List Line

namespace Score

def eventCount (s : Score) : Nat := s.lines.foldl (fun n line => n + line.events.length) 0

/-- A tempo must be a finite number above zero. -/
def validTempo (tempo : Float) : Bool := tempo.isFinite && 0 < tempo

/-- Read the draft at one index. A bad tempo comes before a bad composition. -/
def readDraft (index : Nat) (d : Draft) (desk : Notation.Desk) :
    Except ScoreError Line × Notation.Desk :=
  if validTempo d.tempo then
    match Line.read d.name d.source d.tempo desk with
    | .ok line desk => (.ok line, desk)
    | .error e desk => (.error (.line index d.name e), desk)
  else (.error (.tempo index d.tempo), desk)

def readFrom : List Draft → Nat → Array Line → Notation.Desk →
    Except ScoreError Score × Notation.Desk
  | [], _, done, desk => (.ok ⟨done.toList⟩, desk)
  | d :: drafts, index, done, desk =>
    match readDraft index d desk with
    | (.ok line, desk) => readFrom drafts (index + 1) (done.push line) desk
    | (.error e, desk) => (.error e, desk)

/-- Read a score with an empty cache. The log holds the warnings on the way. -/
def read (drafts : List Draft) : Except ScoreError Score × Log :=
  let (result, desk) := readFrom drafts 0 #[] .empty
  (result, desk.log)

def ofSheet (sheet : Sheet) (defaultTempo : Float) : Except ScoreError Score × Log :=
  read (sheet.drafts defaultTempo)

def ofCompositions (compositions : List (String × Float)) : Except ScoreError Score × Log :=
  read (draftsOf compositions)

/-- The samples of every line, in order, or the first failure. -/
def renderLines (s : Score) : Except RenderError (List Buffer) :=
  s.lines.mapM fun line => line.render.1

/-- Render every line and mix. The log holds what the mix reports. -/
def perform (s : Score) : Except ScoreError Mixdown × Log :=
  match s.renderLines with
  | .error e => (.error (.render e), [])
  | .ok buffers =>
    let mixdown := Mixdown.ofLines buffers
    (.ok mixdown, mixdown.warnings ++ [mixdown.summary])

end Score
end Polyphony
