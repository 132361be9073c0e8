import Polyphony.Proofs.Notation.Joining
import Polyphony.Score.Performance

/-! # Loading a score

The lines of a score share a cache, and yet each of them is read as if it had one of its own. The
first that cannot be read decides the error.
-/
namespace Polyphony
open Notation

section

variable {ε α : Type} {answers : List (Except ε α)}

theorem mapM_id_eq_ok_iff {as : List α} : answers.mapM id = .ok as ↔ answers = as.map .ok := by
  induction answers generalizing as with
  | nil => cases as <;> simp [pure, Except.pure]
  | cons answer answers ih =>
    rw [List.mapM_cons, id]
    cases answer with
    | error e => cases as <;> simp [bind, Except.bind]
    | ok a =>
      cases hrest : answers.mapM id with
      | error e => cases as <;> simp [bind, Except.bind, ← ih, hrest]
      | ok rest => cases as <;> simp [bind, Except.bind, pure, Except.pure, ← ih, hrest]

/-- The error of a list of answers is the first in it. -/
theorem mapM_id_eq_error_iff {e : ε} : answers.mapM id = .error e ↔
    ∃ i : Nat, answers[i]? = some (.error e) ∧ ∀ j < i, ∃ a, answers[j]? = some (.ok a) := by
  induction answers with
  | nil => simp [pure, Except.pure]
  | cons answer answers ih =>
    rw [List.mapM_cons, id]
    cases answer with
    | error e' =>
      constructor
      · intro h
        cases h
        exact ⟨0, rfl, nofun⟩
      · rintro ⟨i, hi, hfirst⟩
        cases i with
        | zero =>
          cases hi
          rfl
        | succ i => simpa using hfirst 0 (Nat.succ_pos i)
    | ok a =>
      have hrest : (Except.ok a >>= fun a => answers.mapM id >>= fun as => pure (a :: as)) =
          .error e ↔ answers.mapM id = .error e := by
        cases answers.mapM id with
        | error e' => simp [bind, Except.bind]
        | ok as => simp [bind, Except.bind, pure, Except.pure]
      rw [hrest, ih]
      constructor
      · rintro ⟨i, hi, hfirst⟩
        refine ⟨i + 1, hi, fun j hj => ?_⟩
        cases j with
        | zero => exact ⟨a, rfl⟩
        | succ j => exact hfirst j (by omega)
      · rintro ⟨i, hi, hfirst⟩
        cases i with
        | zero => simp at hi
        | succ i => exact ⟨i, hi, fun j hj => hfirst (j + 1) (by omega)⟩

end

/-- What the draft at an index is read as with a cache of its own. -/
def Draft.alone (index : Nat) (d : Draft) : Except ScoreError Line :=
  if Score.validTempo d.tempo then
    match Notation.read d.source with
    | .ok events => .ok ⟨d.name, d.tempo, events⟩
    | .error e => .error (.line index d.name e)
  else .error (.tempo index d.tempo)

theorem Line.says_read (name source : String) (tempo : Float) :
    Says (Line.read name source tempo)
      (Notation.read source >>= fun events => .ok ⟨name, tempo, events⟩) := by
  rw [read_eq]
  exact (says_events source).bind fun events _ => says_pure _

namespace Score

theorem readDraft_alone {desk : Desk} (h : desk.cache.Sound) (index : Nat) (d : Draft) :
    (readDraft index d desk).1 = d.alone index ∧ (readDraft index d desk).2.cache.Sound := by
  obtain ⟨hanswer, hsound⟩ := Line.says_read d.name d.source d.tempo desk h
  rw [readDraft, Draft.alone]
  by_cases htempo : validTempo d.tempo = true
  · rw [if_pos htempo, if_pos htempo]
    cases hrun : Line.read d.name d.source d.tempo desk with
    | ok line desk' =>
      rw [hrun] at hanswer hsound
      cases hread : Notation.read d.source with
      | ok events =>
        rw [hread] at hanswer
        cases hanswer
        exact ⟨rfl, hsound⟩
      | error e =>
        rw [hread] at hanswer
        cases hanswer
    | error e desk' =>
      rw [hrun] at hanswer hsound
      cases hread : Notation.read d.source with
      | ok events =>
        rw [hread] at hanswer
        cases hanswer
      | error e =>
        rw [hread] at hanswer
        cases hanswer
        exact ⟨rfl, hsound⟩
  · rw [if_neg htempo, if_neg htempo]
    exact ⟨rfl, h⟩

/-- The drafts are read like so many that are read alone. -/
theorem readFrom_alone (drafts : List Draft) (index : Nat) (done : Array Line) {desk : Desk}
    (h : desk.cache.Sound) : (readFrom drafts index done desk).1 =
      ((drafts.mapIdx fun i (d : Draft) => d.alone (index + i)).mapM id).map
        fun lines => Score.mk (done.toList ++ lines) := by
  induction drafts generalizing index done desk with
  | nil => simp [readFrom, pure, Except.pure, Except.map]
  | cons d drafts ih =>
    obtain ⟨hanswer, hsound⟩ := readDraft_alone h index d
    have hindex : (fun i (d : Draft) => d.alone (index + (i + 1))) =
        fun i d => d.alone (index + 1 + i) := by
      funext i d
      rw [Nat.add_assoc, Nat.add_comm 1]
    rw [readFrom, List.mapIdx_cons, List.mapM_cons, id, hindex]
    change _ = ((d.alone index >>= fun line => _).map _ : Except ScoreError Score)
    rw [← hanswer]
    rcases hdraft : readDraft index d desk with ⟨answer, desk'⟩
    rw [hdraft] at hsound
    cases answer with
    | error e => rfl
    | ok line =>
      simp only [ih (index + 1) (done.push line) hsound, Array.toList_push]
      cases (drafts.mapIdx fun i (d : Draft) => d.alone (index + 1 + i)).mapM id with
      | error e => rfl
      | ok lines => simp [bind, Except.bind, pure, Except.pure, Except.map]

theorem read_alone (drafts : List Draft) :
    (read drafts).1 = ((drafts.mapIdx Draft.alone).mapM id).map Score.mk := by
  have hread := @readFrom_alone drafts 0 #[] .empty PitchCache.sound_empty
  simp only [Nat.zero_add, List.nil_append] at hread
  exact hread

theorem read_eq_error_iff {drafts : List Draft} {e : ScoreError} :
    (read drafts).1 = .error e ↔ (drafts.mapIdx Draft.alone).mapM id = .error e := by
  rw [read_alone]
  cases (drafts.mapIdx Draft.alone).mapM id with
  | error e' => simp [Except.map]
  | ok lines => simp [Except.map]

end Score

namespace Sheet

variable (sheet : Sheet) (defaultTempo : Float)

/-- The tempo of a part: its own, else that of the sheet, else the default. -/
def tempoOf (part : Part) : Float :=
  match part.tempo, sheet.tempo with
  | some tempo, _ => tempo
  | none, some tempo => tempo
  | none, none => defaultTempo

structure Loads (index : Nat) (part : Part) (line : Line) : Prop where
  finite : (sheet.tempoOf defaultTempo part).isFinite = true
  positive : 0 < sheet.tempoOf defaultTempo part
  name : line.name = part.name.getD s!"line {index}"
  tempo : line.baseTempo = sheet.tempoOf defaultTempo part
  events : read part.composition.expand = .ok line.events

/-- Why a part is refused. Its tempo comes before its composition. -/
inductive Refuses (index : Nat) (part : Part) : ScoreError → Prop
  | tempo :
    ¬ ((sheet.tempoOf defaultTempo part).isFinite = true ∧ 0 < sheet.tempoOf defaultTempo part) →
    Refuses index part (.tempo index (sheet.tempoOf defaultTempo part))
  | line {e : Notation.Error} : (sheet.tempoOf defaultTempo part).isFinite = true →
    0 < sheet.tempoOf defaultTempo part → read part.composition.expand = .error e →
    Refuses index part (.line index (part.name.getD s!"line {index}") e)

def nameless : Sheet :=
  { sheet with parts := sheet.parts.map fun part => { part with name := none } }

def draft (index : Nat) (part : Part) : Draft :=
  ⟨part.name.getD (s!"line {index}"), sheet.tempoOf defaultTempo part, part.composition.expand⟩

variable {sheet defaultTempo}

theorem drafts_eq :
    sheet.drafts defaultTempo = sheet.parts.mapIdx (sheet.draft defaultTempo) := by
  have htempo (part : Part) :
      part.tempo.getD (sheet.tempo.getD defaultTempo) = sheet.tempoOf defaultTempo part := by
    rw [tempoOf]
    cases part.tempo with
    | some tempo => rfl
    | none => cases sheet.tempo <;> rfl
  simp only [drafts, htempo]
  rfl

section

variable {index : Nat} {part : Part}

theorem draft_validTempo : Score.validTempo (sheet.draft defaultTempo index part).tempo = true ↔
    (sheet.tempoOf defaultTempo part).isFinite = true ∧ 0 < sheet.tempoOf defaultTempo part := by
  rw [Score.validTempo, Bool.and_eq_true, decide_eq_true_iff]
  rfl

theorem draft_alone_of_tempo (h : (sheet.tempoOf defaultTempo part).isFinite = true ∧
      0 < sheet.tempoOf defaultTempo part) :
    (sheet.draft defaultTempo index part).alone index =
      match read part.composition.expand with
      | .ok events => .ok ⟨part.name.getD (s!"line {index}"), sheet.tempoOf defaultTempo part, events⟩
      | .error e => .error (.line index (part.name.getD (s!"line {index}")) e) := by
  rw [Draft.alone, if_pos (draft_validTempo.mpr h)]
  rfl

theorem draft_alone_of_not_tempo (h : ¬ ((sheet.tempoOf defaultTempo part).isFinite = true ∧
      0 < sheet.tempoOf defaultTempo part)) :
    (sheet.draft defaultTempo index part).alone index =
      .error (.tempo index (sheet.tempoOf defaultTempo part)) := by
  rw [Draft.alone, if_neg (mt draft_validTempo.mp h)]
  rfl

theorem draft_alone_eq_ok_iff {line : Line} :
    (sheet.draft defaultTempo index part).alone index = .ok line ↔
      sheet.Loads defaultTempo index part line := by
  constructor
  · intro h
    by_cases htempo : (sheet.tempoOf defaultTempo part).isFinite = true ∧
        0 < sheet.tempoOf defaultTempo part
    · rw [draft_alone_of_tempo htempo] at h
      split at h
      · rename_i events hread
        cases h
        exact ⟨htempo.1, htempo.2, rfl, rfl, hread⟩
      · cases h
    · rw [draft_alone_of_not_tempo htempo] at h
      cases h
  · rintro ⟨hfinite, hpositive, hname, htempo, hevents⟩
    rw [draft_alone_of_tempo ⟨hfinite, hpositive⟩, hevents, ← hname, ← htempo]

theorem draft_alone_eq_error_iff {e : ScoreError} :
    (sheet.draft defaultTempo index part).alone index = .error e ↔
      sheet.Refuses defaultTempo index part e := by
  constructor
  · intro h
    by_cases htempo : (sheet.tempoOf defaultTempo part).isFinite = true ∧
        0 < sheet.tempoOf defaultTempo part
    · rw [draft_alone_of_tempo htempo] at h
      split at h
      · cases h
      · rename_i e hread
        cases h
        exact .line htempo.1 htempo.2 hread
    · rw [draft_alone_of_not_tempo htempo] at h
      cases h
      exact .tempo htempo
  · intro h
    cases h with
    | tempo htempo => exact draft_alone_of_not_tempo htempo
    | line hfinite hpositive hread => rw [draft_alone_of_tempo ⟨hfinite, hpositive⟩, hread]

end

theorem answer_getElem? (i : Nat) : ((sheet.drafts defaultTempo).mapIdx Draft.alone)[i]? =
    sheet.parts[i]?.map fun part => (sheet.draft defaultTempo i part).alone i := by
  simp [drafts_eq, Function.comp_def]

end Sheet

namespace Score

variable {sheet : Sheet} {defaultTempo : Float}

theorem ofSheet_eq_ok {score : Score} (h : (ofSheet sheet defaultTempo).1 = .ok score) :
    score.lines.length = sheet.parts.length ∧ ∀ i part, sheet.parts[i]? = some part →
      ∃ line, score.lines[i]? = some line ∧ sheet.Loads defaultTempo i part line := by
  rw [ofSheet, read_alone] at h
  cases hlines : ((sheet.drafts defaultTempo).mapIdx Draft.alone).mapM id with
  | error e =>
    rw [hlines] at h
    cases h
  | ok lines =>
    rw [hlines] at h
    cases h
    rw [mapM_id_eq_ok_iff] at hlines
    constructor
    · have hlength := congrArg List.length hlines
      simpa [Sheet.drafts_eq] using hlength.symm
    · intro i part hpart
      have hanswer := @Sheet.answer_getElem? sheet defaultTempo i
      rw [hlines, hpart, List.getElem?_map, Option.map_some, Option.map_eq_some_iff] at hanswer
      obtain ⟨line, hline, halone⟩ := hanswer
      exact ⟨line, hline, Sheet.draft_alone_eq_ok_iff.mp halone.symm⟩

theorem ofSheet_eq_error_iff {e : ScoreError} : (ofSheet sheet defaultTempo).1 = .error e ↔
    ∃ i part, sheet.parts[i]? = some part ∧ sheet.Refuses defaultTempo i part e ∧
      ∀ j < i, ∀ earlier, sheet.parts[j]? = some earlier →
        ∃ line, sheet.Loads defaultTempo j earlier line := by
  rw [ofSheet, read_eq_error_iff, mapM_id_eq_error_iff]
  simp only [Sheet.answer_getElem?, Option.map_eq_some_iff, Sheet.draft_alone_eq_error_iff,
    Sheet.draft_alone_eq_ok_iff]
  constructor
  · rintro ⟨i, ⟨part, hpart, hrefuses⟩, hfirst⟩
    refine ⟨i, part, hpart, hrefuses, fun j hj earlier hearlier => ?_⟩
    obtain ⟨line, earlier', hearlier', hloads⟩ := hfirst j hj
    rw [hearlier] at hearlier'
    cases hearlier'
    exact ⟨line, hloads⟩
  · rintro ⟨i, part, hpart, hrefuses, hfirst⟩
    refine ⟨i, ⟨part, hpart, hrefuses⟩, fun j hj => ?_⟩
    have hi := (List.getElem?_eq_some_iff.mp hpart).1
    have hearlier := List.getElem?_eq_getElem (Nat.lt_trans hj hi)
    obtain ⟨line, hloads⟩ := hfirst j hj _ hearlier
    exact ⟨line, _, hearlier, hloads⟩

theorem ofSheet_eq_ok_iff : (∃ score, (ofSheet sheet defaultTempo).1 = .ok score) ↔
    ∀ part ∈ sheet.parts, (sheet.tempoOf defaultTempo part).isFinite = true ∧
      0 < sheet.tempoOf defaultTempo part ∧
        ∃ events, Notation.read part.composition.expand = .ok events := by
  constructor
  · rintro ⟨score, h⟩ part hpart
    obtain ⟨i, hi⟩ := List.mem_iff_getElem?.mp hpart
    obtain ⟨line, -, hloads⟩ := (ofSheet_eq_ok h).2 i part hi
    exact ⟨hloads.finite, hloads.positive, line.events, hloads.events⟩
  · intro hall
    cases h : (ofSheet sheet defaultTempo).1 with
    | ok score => exact ⟨score, rfl⟩
    | error e =>
      obtain ⟨i, part, hpart, hrefuses, -⟩ := ofSheet_eq_error_iff.mp h
      obtain ⟨hfinite, hpositive, events, hevents⟩ := hall part (List.mem_of_getElem? hpart)
      cases hrefuses with
      | tempo htempo => exact absurd ⟨hfinite, hpositive⟩ htempo
      | line _ _ hread =>
        rw [hread] at hevents
        cases hevents

/-- Compositions with their tempos load like a sheet whose parts have no names. -/
theorem ofCompositions_eq_ofSheet :
    ofCompositions (sheet.parts.map fun part =>
      (part.composition.expand, sheet.tempoOf defaultTempo part)) =
    ofSheet sheet.nameless defaultTempo := by
  have hdrafts : draftsOf (sheet.parts.map fun part =>
      (part.composition.expand, sheet.tempoOf defaultTempo part)) =
      sheet.nameless.drafts defaultTempo := by
    apply List.ext_getElem?
    intro i
    rw [Sheet.drafts_eq, Sheet.nameless, draftsOf, List.getElem?_mapIdx, List.getElem?_mapIdx,
      List.getElem?_map, List.getElem?_map]
    cases sheet.parts[i]? with
    | none => rfl
    | some part => rfl
  rw [ofCompositions, ofSheet, hdrafts]

/-- A score loads line by line. Each line is read as if it stood alone, the first that is refused
decides the error whatever comes behind it, and compositions with their tempos are no different. -/
theorem ofSheet_line_by_line (sheet : Sheet) (defaultTempo : Float) :
    ((∃ score, (ofSheet sheet defaultTempo).1 = .ok score) ↔
      ∀ part ∈ sheet.parts, (sheet.tempoOf defaultTempo part).isFinite = true ∧
        0 < sheet.tempoOf defaultTempo part ∧
          ∃ events, Notation.read part.composition.expand = .ok events) ∧
    (∀ score, (ofSheet sheet defaultTempo).1 = .ok score →
      score.lines.length = sheet.parts.length ∧ ∀ i part, sheet.parts[i]? = some part →
        ∃ line, score.lines[i]? = some line ∧ sheet.Loads defaultTempo i part line) ∧
    (∀ e, (ofSheet sheet defaultTempo).1 = .error e ↔
      ∃ i part, sheet.parts[i]? = some part ∧ sheet.Refuses defaultTempo i part e ∧
        ∀ j < i, ∀ earlier, sheet.parts[j]? = some earlier →
          ∃ line, sheet.Loads defaultTempo j earlier line) ∧
    ofCompositions (sheet.parts.map fun part =>
      (part.composition.expand, sheet.tempoOf defaultTempo part)) =
        ofSheet sheet.nameless defaultTempo :=
  ⟨ofSheet_eq_ok_iff, fun _ => ofSheet_eq_ok, fun _ => ofSheet_eq_error_iff,
    ofCompositions_eq_ofSheet⟩

/-- A part without a tempo to play at is refused for its tempo, though its text is refused as well
and so is the part behind it. With a tempo it is refused for its text, by its position since it
has no name, and the part before it loads alone. -/
theorem ofSheet_line_by_line_tempo :
    let melody : Part := ⟨none, none, .fragments []⟩
    let bass : Part := ⟨some "bass", some (0 / 0), .text ")"⟩
    (ofSheet ⟨some 120, [melody, ⟨none, some 0, .text "("⟩, bass]⟩ 90).1 = .error (.tempo 1 0) ∧
    (ofSheet ⟨some 120, [melody, ⟨none, some 60, .text "("⟩, bass]⟩ 90).1 =
      .error (.line 1 "line 1" ⟨.missingKey, 1⟩) ∧
    ∃ score, (ofSheet ⟨none, [melody]⟩ 90).1 = .ok score ∧
      score.lines = [⟨"line 0", 90, []⟩] := by
  intro melody bass
  have hfinite : (120 : Float).isFinite = true := by decide
  have hpositive : (0 : Float) < 120 := by decide
  have hmelody (part : Part) : Sheet.Loads ⟨some 120, [melody, part, bass]⟩ 90 0 melody
      ⟨"line 0", 120, []⟩ := ⟨hfinite, hpositive, rfl, rfl, read_empty⟩
  have hopen : Notation.read "(" = .error ⟨.missingKey, 1⟩ := by cbv
  refine ⟨?_, ?_, ?_⟩
  · obtain ⟨-, -, herror, -⟩ :=
      ofSheet_line_by_line ⟨some 120, [melody, ⟨none, some 0, .text "("⟩, bass]⟩ 90
    refine (herror _).mpr ⟨1, _, rfl, .tempo (by decide), fun j hj earlier hearlier => ?_⟩
    obtain rfl : j = 0 := by omega
    obtain rfl := Option.some.inj hearlier
    exact ⟨_, hmelody _⟩
  · obtain ⟨-, -, herror, -⟩ :=
      ofSheet_line_by_line ⟨some 120, [melody, ⟨none, some 60, .text "("⟩, bass]⟩ 90
    refine (herror _).mpr
      ⟨1, _, rfl, .line (by decide) (by decide) hopen, fun j hj earlier hearlier => ?_⟩
    obtain rfl : j = 0 := by omega
    obtain rfl := Option.some.inj hearlier
    exact ⟨_, hmelody _⟩
  · obtain ⟨hloads, hlines, -⟩ := ofSheet_line_by_line ⟨none, [melody]⟩ 90
    obtain ⟨score, hscore⟩ := hloads.mpr fun part hpart => by
      obtain rfl := List.mem_singleton.mp hpart
      exact ⟨by decide, by decide, [], read_empty⟩
    obtain ⟨hlength, hline⟩ := hlines score hscore
    obtain ⟨⟨name, tempo, events⟩, hfirst, hmelody⟩ := hline 0 melody rfl
    obtain rfl := hmelody.name
    obtain rfl := hmelody.tempo
    obtain rfl := Except.ok.inj (hmelody.events.symm.trans read_empty)
    obtain ⟨only, honly⟩ := List.length_eq_one_iff.mp hlength
    rw [honly] at hfirst
    obtain rfl := Option.some.inj hfirst
    exact ⟨score, hscore, honly⟩

end Score
end Polyphony
