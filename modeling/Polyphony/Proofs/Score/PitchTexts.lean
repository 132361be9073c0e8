import Polyphony.CommandLine.Program
import Polyphony.Proofs.Notation.Grouping
import Polyphony.Proofs.Score.Loading

/-! # Pitches of scores

The reader of single pitches accepts what is cut out of a composition as one, and nothing else.
So no composition is refused for the text of a pitch, and no score either.
-/
namespace Polyphony
open Notation

namespace Notation

/-- A composition is refused for the way it is cut or for its events, not for its pitches. -/
theorem read_error_stage {source : String} {e : Notation.Error} (h : read source = .error e) :
    e.cause.stage ≠ .pitch := by
  cases hscan : scan source with
  | error e' =>
    rw [read_eq, hscan] at h
    cases h
    simp [(scan_error hscan).1]
  | ok tokens =>
    have hfirst := ((read_settles hscan).error_iff e).mp h
    obtain ⟨token, -, hrefusal⟩ := List.exists_of_findSome?_eq_some hfirst
    simp [(Token.refusal?_eq_some hrefusal).2.1]

end Notation

/-- Not an error of a pitch. -/
def ScoreError.SparesPitches : ScoreError → Prop
  | .line _ _ e => e.cause.stage ≠ .pitch
  | .malformed | .render _ | .tempo _ _ => True

theorem Draft.alone_error {index : Nat} {d : Draft} {e : ScoreError}
    (h : d.alone index = .error e) : e.SparesPitches := by
  rw [Draft.alone] at h
  split at h
  · cases hread : Notation.read d.source with
    | ok events =>
      rw [hread] at h
      cases h
    | error e' =>
      rw [hread] at h
      cases h
      exact read_error_stage hread
  · cases h
    trivial

namespace Score

theorem read_error {drafts : List Draft} {e : ScoreError} (h : (read drafts).1 = .error e) :
    e.SparesPitches := by
  obtain ⟨i, hi, -⟩ := mapM_id_eq_error_iff.mp (read_eq_error_iff.mp h)
  rw [List.getElem?_mapIdx, Option.map_eq_some_iff] at hi
  obtain ⟨d, -, halone⟩ := hi
  exact Draft.alone_error halone

theorem ofTextBy_error {read : String → Option Sheet} {text : String} {defaultTempo : Float}
    {e : ScoreError} (h : (ofTextBy read text defaultTempo).1 = .error e) : e.SparesPitches := by
  rw [ofTextBy] at h
  split at h
  · exact read_error h
  · cases h
    trivial

end Score

namespace CommandLine

variable {read : String → Option Sheet} {defaultTempo : Float}

def loads (read : String → Option Sheet) (defaultTempo : Float) :
    Except FileError String → Except Failure Score
  | .ok text => (Score.ofTextBy read text defaultTempo).1.mapError .score
  | .error e => .error (.unreadable e)

theorem scoreBy_eq {m : Type → Type} [Monad m] (files : Files m) (path : String) :
    Program.scoreBy read files path defaultTempo =
      (do return loads read defaultTempo (← files.readText path)) := by
  unfold Program.scoreBy
  congr 1
  funext text
  cases text with
  | error e => rfl
  | ok text =>
    simp only [loads]
    cases (Score.ofTextBy read text defaultTempo).1 <;> rfl

theorem loads_error {file : Except FileError String} {e : ScoreError}
    (h : loads read defaultTempo file = .error (.score e)) : e.SparesPitches := by
  cases file with
  | error e' => cases h
  | ok text =>
    rw [loads] at h
    cases hscore : (Score.ofTextBy read text defaultTempo).1 with
    | ok score =>
      rw [hscore] at h
      cases h
    | error e' =>
      rw [hscore] at h
      cases h
      exact Score.ofTextBy_error hscore

end CommandLine

/-- The two readers of pitches agree. A text is one pitch to the one exactly if it is to the other,
and whatever is cut out of a composition is a pitch. So no error of a composition is one of a
pitch, whatever has been read before, and no error of a score is, wherever it comes from and however
its text is read. -/
theorem pitch_readers_agree :
    (∀ text, (∃ p, Pitch.ofText? text = some p) ↔ scan text = .ok [⟨.note text, 1⟩]) ∧
    (∀ source tokens, scan source = .ok tokens → ∀ token ∈ tokens, ∀ text ∈ token.texts,
      ∃ p, Pitch.ofText? text = some p) ∧
    (∀ (past : List Call) source e, outcome (events source (Desk.after past)) = .error e →
      e.cause.stage ≠ .pitch) ∧
    (∀ compositions e, (Score.ofCompositions compositions).1 = .error e → e.SparesPitches) ∧
    (∀ sheet defaultTempo e, (Score.ofSheet sheet defaultTempo).1 = .error e → e.SparesPitches) ∧
    (∀ read text defaultTempo e,
      (Score.ofTextBy read text defaultTempo).1 = .error e → e.SparesPitches) ∧
    ∀ (m : Type → Type) [Monad m] (files : CommandLine.Files m) read path defaultTempo,
      CommandLine.Program.scoreBy read files path defaultTempo =
        (do return CommandLine.loads read defaultTempo (← files.readText path)) ∧
      ∀ file e, CommandLine.loads read defaultTempo file = .error (.score e) →
        e.SparesPitches := by
  refine ⟨fun text => ?_, fun source tokens h token htoken text htext => ?_,
    fun past source e h => ?_, fun _ _ => Score.read_error, fun _ _ _ => Score.read_error,
    fun _ _ _ _ => Score.ofTextBy_error,
    fun m _ files read path defaultTempo => ⟨CommandLine.scoreBy_eq files path, fun _ _ =>
      CommandLine.loads_error⟩⟩
  · rw [exists_ofText?_iff, scan_note_iff]
  · rw [exists_ofText?_iff]
    exact scan_isPitch h token htoken text htext
  · rw [outcome_events (Desk.after_holds past).sound] at h
    exact read_error_stage h

/-- A double flat with cents is a pitch, in a chord and alone. A third flat is refused, in a
composition and in a score, but not as a pitch. -/
theorem pitch_readers_agree_flats :
    (∃ p, Pitch.ofText? "Bbb3-50" = some p) ∧ scan "Bbb3-50" = .ok [⟨.note "Bbb3-50", 1⟩] ∧
    (∃ e, outcome (events "Bbbb3" (Desk.after [])) = .error e ∧ e.cause.stage ≠ .pitch) ∧
    (∃ e, (Score.ofCompositions [("Bbbb3", 1)]).1 = .error e ∧ e.SparesPitches) := by
  have hscan : scan "[C4 Bbb3-50]" = .ok [⟨.chord ["C4", "Bbb3-50"], 1⟩] := by
    with_unfolding_all rfl
  have hrefused : ∃ e, outcome (events "Bbbb3" (Desk.after [])) = .error e :=
    ⟨_, by with_unfolding_all rfl⟩
  have hscore : ∃ e, (Score.ofCompositions [("Bbbb3", 1)]).1 = .error e :=
    ⟨_, by with_unfolding_all rfl⟩
  obtain ⟨hiff, haccepted, hevents, hcompositions, -⟩ := pitch_readers_agree
  have hpitch := haccepted _ _ hscan ⟨.chord ["C4", "Bbb3-50"], 1⟩ (by simp) "Bbb3-50"
    (by simp [Token.texts, Lexeme.pitches?])
  obtain ⟨e, hrefused⟩ := hrefused
  obtain ⟨e', hscore⟩ := hscore
  exact ⟨hpitch, (hiff _).mp hpitch, ⟨e, hrefused, hevents _ _ _ hrefused⟩,
    ⟨e', hscore, hcompositions _ _ hscore⟩⟩

end Polyphony
