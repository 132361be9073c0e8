import Polyphony.Proofs.Notation.CacheContents

/-! # One event for each group

The tokens of a composition fall into groups, a unit and the duration right behind it, in one way
only. Each group becomes one event. The composition is refused for its first token that cannot be
read, which is a duration of denominator zero or a command.
-/
namespace Polyphony.Notation

def Group.tokens (g : Group) : List Token := g.token :: g.length.toList

/-- The groups make up the tokens. Each begins with a unit, and only a duration may follow it. -/
structure Grouped (tokens : List Token) (gs : List Group) : Prop where
  whole : gs.flatMap Group.tokens = tokens
  unit : ∀ g ∈ gs, g.token.lexeme.isDuration = false
  length : ∀ g ∈ gs, ∀ d ∈ g.length, d.lexeme.isDuration = true

def Attached : Bool → List Token → Prop
  | _, [] => True
  | attached, token :: tokens =>
    (token.lexeme.isDuration = true → attached = true) ∧
      Attached token.lexeme.takesDuration tokens

theorem Row.attached {attached : Bool} {col : Nat} {pieces : List Piece}
    (h : Row attached col pieces) : Attached attached (pieces.map Piece.token) := by
  induction h with
  | nil => trivial
  | cons hstands _ ih => exact ⟨fun hd => (hstands.duration hd).2, ih⟩

theorem scan_attached {source : String} {tokens : List Token} (h : scan source = .ok tokens) :
    Attached false tokens := by
  obtain ⟨pieces, tail, -, hrow, -, rfl⟩ := scan_eq_ok_iff.mp h
  exact hrow.attached

theorem Lexeme.takesDuration_of_isDuration {x : Lexeme} (h : x.isDuration = true) :
    x.takesDuration = false := by
  cases x with
  | duration => rfl
  | _ => cases h

section

variable {attached : Bool} {tokens : List Token} {g : Group} {gs : List Group}

/-- Nothing needs to stand before a row that does not begin with a duration. -/
theorem Attached.free (h : Attached attached tokens)
    (hhead : ∀ token ∈ tokens.head?, token.lexeme.isDuration = false) : Attached false tokens := by
  cases tokens with
  | nil => trivial
  | cons token tokens =>
    refine ⟨fun hd => ?_, h.2⟩
    rw [hhead token rfl] at hd
    cases hd

theorem Attached.unit {token : Token} (h : Attached false (token :: tokens)) :
    token.lexeme.isDuration = false :=
  Bool.eq_false_iff.mpr fun hd => nomatch h.1 hd

theorem Grouped.nil : Grouped [] [] := ⟨rfl, by simp, by simp⟩

theorem Grouped.cons (h : Grouped tokens gs) (hunit : g.token.lexeme.isDuration = false)
    (hlength : ∀ d ∈ g.length, d.lexeme.isDuration = true) :
    Grouped (g.tokens ++ tokens) (g :: gs) :=
  ⟨by rw [List.flatMap_cons, h.whole], List.forall_mem_cons.mpr ⟨hunit, h.unit⟩,
    List.forall_mem_cons.mpr ⟨hlength, h.length⟩⟩

theorem Grouped.head (h : Grouped tokens gs) :
    ∀ token ∈ tokens.head?, token.lexeme.isDuration = false := by
  obtain ⟨rfl, hunit, -⟩ := h
  cases gs with
  | nil => exact nofun
  | cons g gs =>
    rintro token ⟨⟩
    exact hunit g (by simp)

theorem Attached.grouped (h : Attached false tokens) : Grouped tokens (groups tokens) := by
  fun_induction groups tokens with
  | case1 => exact .nil
  | case2 token => exact Grouped.nil.cons (g := ⟨token, none⟩) h.unit (by simp)
  | case3 token next rest hnext ih =>
    have hrest := h.2.2
    rw [Lexeme.takesDuration_of_isDuration hnext.2] at hrest
    exact (ih hrest).cons (g := ⟨token, some next⟩) h.unit (by simpa using hnext.2)
  | case4 token next rest hnext ih =>
    have hhead : next.lexeme.isDuration = false :=
      Bool.eq_false_iff.mpr fun hd => hnext ⟨h.2.1 hd, hd⟩
    have hrest := h.2.free (by simpa using hhead)
    exact (ih hrest).cons (g := ⟨token, none⟩) h.unit (by simp)

/-- There is no other way to group a row, and in this way only units that take a duration have
one. -/
theorem Grouped.eq_groups (hgs : Grouped tokens gs) (h : Attached false tokens) :
    gs = groups tokens ∧ ∀ g ∈ gs, g.length.isSome = true → g.token.lexeme.takesDuration = true := by
  obtain ⟨rfl, hunit, hlength⟩ := hgs
  induction gs with
  | nil => exact ⟨rfl, nofun⟩
  | cons g gs ih =>
    obtain ⟨hunit, hunits⟩ := List.forall_mem_cons.mp hunit
    obtain ⟨hlength, hlengths⟩ := List.forall_mem_cons.mp hlength
    have hhead := Grouped.head ⟨rfl, hunits, hlengths⟩
    rcases g with ⟨token, _ | d⟩
    · obtain ⟨heq, htakes⟩ := ih hunits hlengths (h.2.free hhead)
      refine ⟨?_, List.forall_mem_cons.mpr ⟨nofun, htakes⟩⟩
      rw [List.flatMap_cons]
      exact (congrArg _ heq).trans (groups_cons_of_not (.inr hhead)).symm
    · have hd := hlength d rfl
      obtain ⟨heq, htakes⟩ := ih hunits hlengths (h.2.2.free hhead)
      refine ⟨?_, List.forall_mem_cons.mpr ⟨fun _ => h.2.1 hd, htakes⟩⟩
      change _ = groups (token :: d :: gs.flatMap Group.tokens)
      rw [groups, if_pos ⟨h.2.1 hd, hd⟩, ← heq]

end

def Token.refusal? (token : Token) : Option Error :=
  match token.lexeme with
  | .duration _ 0 => some ⟨.zeroDenominator, token.col⟩
  | .command key value =>
    match readCommand key value with
    | .error cause => some ⟨cause, token.col⟩
    | .ok _ => none
  | _ => none

def Names (text : String) (freq : Float) : Prop :=
  ∃ p, Pitch.ofText? text = some p ∧ freq = p.frequency

/-- How long a note is: one beat, or what the duration behind it says. -/
inductive Lasts : Option Token → Beats → Prop
  | beat : Lasts none .one
  | duration {num den col : Nat} {beats : Beats} : Beats.ofFraction? num den = some beats →
      Lasts (some ⟨.duration num den, col⟩) beats

/-- The event that a group becomes. A chord sounds its pitches in their order, as often as they
stand there. -/
inductive Group.Becomes : Group → Event → Prop
  | rest {col : Nat} {length : Option Token} {beats : Beats} : Lasts length beats →
      Becomes ⟨⟨.rest, col⟩, length⟩ (.note ⟨[], beats⟩)
  | note {pitch : String} {col : Nat} {length : Option Token} {freq : Float} {beats : Beats} :
      Names pitch freq → Lasts length beats →
      Becomes ⟨⟨.note pitch, col⟩, length⟩ (.note ⟨[freq], beats⟩)
  | chord {pitches : List String} {col : Nat} {length : Option Token} {freqs : List Float}
      {beats : Beats} : List.Forall₂ Names pitches freqs → Lasts length beats →
      Becomes ⟨⟨.chord pitches, col⟩, length⟩ (.note ⟨freqs, beats⟩)
  | command {key value : String} {col : Nat} {command : Command} {log : Log} :
      readCommand key value = .ok (command, log) →
      Becomes ⟨⟨.command key value, col⟩, none⟩ (.command command)

/-- An answer is the error of a refusal, or something good if nothing is refused. -/
inductive Settles {α : Type} (good : α → Prop) : Option Error → Except Error α → Prop
  | refused (e : Error) : Settles good (some e) (.error e)
  | done {a : α} : good a → Settles good none (.ok a)

namespace Settles

variable {α : Type} {good : α → Prop} {refusal : Option Error} {answer : Except Error α}

theorem error_iff (h : Settles good refusal answer) (e : Error) :
    answer = .error e ↔ refusal = some e := by
  cases h <;> simp [eq_comm]

theorem map {β : Type} {good' : β → Prop} {f : α → β} (h : Settles good refusal answer)
    (hf : ∀ a, good a → good' (f a)) : Settles good' refusal (f <$> answer) := by
  cases h with
  | refused => exact .refused _
  | done ha => exact .done (hf _ ha)

/-- Of two answers in a row, the first one that is refused is the error. -/
theorem bind {β : Type} {good' : β → Prop} {refusal' : Option Error} {f : α → Except Error β}
    (h : Settles good refusal answer) (hf : ∀ a, good a → Settles good' refusal' (f a)) :
    Settles good' (refusal.or refusal') (answer >>= f) := by
  cases h with
  | refused => exact .refused _
  | done ha =>
    rw [Option.none_or]
    exact hf _ ha

end Settles

structure Group.Proper (g : Group) : Prop where
  unit : g.token.lexeme.isDuration = false
  pitches : ∀ text ∈ g.token.texts, IsPitch text.toList
  length : ∀ d ∈ g.length, d.lexeme.isDuration = true
  takes : g.length.isSome = true → g.token.lexeme.takesDuration = true

theorem pitchAt_eq_ok {text : String} (h : IsPitch text.toList) (col : Nat) :
    ∃ freq, pitchAt col text = .ok freq ∧ Names text freq := by
  obtain ⟨p, hp⟩ := Pitch.exists_ofChars? h
  have hne : text ≠ "r" := by
    rintro rfl
    cases hp
  refine ⟨p.frequency, ?_, p, hp, rfl⟩
  rw [pitchAt, frequency?, if_neg hne, Pitch.ofText?, hp]
  rfl

theorem mapM_pitchAt_eq_ok {texts : List String} (h : ∀ text ∈ texts, IsPitch text.toList)
    (col : Nat) : ∃ freqs, texts.mapM (pitchAt col) = .ok freqs ∧ List.Forall₂ Names texts freqs := by
  induction texts with
  | nil => exact ⟨[], rfl, .nil⟩
  | cons text texts ih =>
    obtain ⟨htext, htexts⟩ := List.forall_mem_cons.mp h
    obtain ⟨freq, hfreq, hnames⟩ := pitchAt_eq_ok htext col
    obtain ⟨freqs, hfreqs, hall⟩ := ih htexts
    exact ⟨freq :: freqs, by rw [List.mapM_cons, hfreq, hfreqs]; rfl, .cons hnames hall⟩

section

variable {g : Group}

theorem Group.beats_settles (hlength : ∀ d ∈ g.length, d.lexeme.isDuration = true) :
    Settles (Lasts g.length) (g.length.bind Token.refusal?) g.beats := by
  rcases g with ⟨token, _ | ⟨lexeme, col⟩⟩
  · exact .done .beat
  have hd := hlength _ rfl
  cases lexeme with
  | duration num den =>
    cases den with
    | zero => exact .refused _
    | succ den => exact .done (.duration rfl)
  | _ => cases hd

/-- A group that sounds is refused only for its duration. -/
theorem Group.event_of_sound {freqs : List Float} (hg : g.Proper)
    (hmeaning : g.token.meaning = .ok (.sound freqs)) (hrefusal : g.token.refusal? = none)
    (hbecomes : ∀ beats, Lasts g.length beats → g.Becomes (.note ⟨freqs, beats⟩)) :
    Settles g.Becomes (g.tokens.findSome? Token.refusal?) g.event := by
  have hfind : g.tokens.findSome? Token.refusal? = g.length.bind Token.refusal? := by
    rw [Group.tokens, List.findSome?_cons, hrefusal]
    cases g.length with
    | none => rfl
    | some d => simp
  have hevent : g.event = (fun duration => Event.note ⟨freqs, duration⟩) <$> g.beats := by
    rw [Group.event, hmeaning]
    rfl
  rw [hfind, hevent]
  exact (Group.beats_settles hg.length).map hbecomes

theorem Group.event_of_command (key value : String) (col : Nat) :
    Settles (Group.Becomes ⟨⟨.command key value, col⟩, none⟩)
      (Token.refusal? ⟨.command key value, col⟩)
      (Group.event ⟨⟨.command key value, col⟩, none⟩) := by
  simp only [Token.refusal?, Group.event, Token.meaning, commandAt]
  cases hread : readCommand key value with
  | ok r => exact .done (.command hread)
  | error cause => exact .refused _

/-- One group: its event, or the error of its first token that is refused. -/
theorem Group.event_settles (hg : g.Proper) :
    Settles g.Becomes (g.tokens.findSome? Token.refusal?) g.event := by
  rcases g with ⟨⟨lexeme, col⟩, length⟩
  cases lexeme with
  | rest => exact Group.event_of_sound hg rfl rfl fun beats hlasts => .rest hlasts
  | note pitch =>
    have hpitch := hg.pitches pitch (by simp [Token.texts, Lexeme.pitches?])
    obtain ⟨freq, hfreq, hnames⟩ := pitchAt_eq_ok hpitch col
    refine Group.event_of_sound hg ?_ rfl fun beats hlasts => .note hnames hlasts
    simp only [Token.meaning, hfreq]
    rfl
  | chord pitches =>
    have hpitches : ∀ text ∈ pitches, IsPitch text.toList := hg.pitches
    obtain ⟨freqs, hfreqs, hnames⟩ := mapM_pitchAt_eq_ok hpitches col
    refine Group.event_of_sound hg ?_ rfl fun beats hlasts => .chord hnames hlasts
    simp only [Token.meaning, hfreqs]
    rfl
  | command key value =>
    cases length with
    | some d => cases hg.takes rfl
    | none =>
      rw [Group.tokens, Option.toList_none, List.findSome?_singleton]
      exact Group.event_of_command key value col
  | duration num den => cases hg.unit

end

/-- A row of groups: their events, or the error of the first token that is refused. -/
theorem mapM_event_settles {gs : List Group} (h : ∀ g ∈ gs, g.Proper) :
    Settles (List.Forall₂ Group.Becomes gs) ((gs.flatMap Group.tokens).findSome? Token.refusal?)
      (gs.mapM Group.event) := by
  induction gs with
  | nil => exact .done .nil
  | cons g gs ih =>
    obtain ⟨hg, hgs⟩ := List.forall_mem_cons.mp h
    rw [List.flatMap_cons, List.findSome?_append, List.mapM_cons]
    refine (Group.event_settles hg).bind fun e hbecomes => ?_
    rw [bind_pure_comp]
    exact (ih hgs).map fun es hall => .cons hbecomes hall

theorem scan_proper {source : String} {tokens : List Token} (h : scan source = .ok tokens) :
    ∀ g ∈ groups tokens, g.Proper := by
  have hgrouped := (scan_attached h).grouped
  intro g hg
  have htoken : g.token ∈ tokens := by
    rw [← hgrouped.whole]
    exact List.mem_flatMap.mpr ⟨g, hg, by simp [Group.tokens]⟩
  exact ⟨hgrouped.unit g hg, scan_isPitch h g.token htoken, hgrouped.length g hg,
    (hgrouped.eq_groups (scan_attached h)).2 g hg⟩

/-- A composition that is cut into tokens: its events, or the error of its first token that is
refused. -/
theorem read_settles {source : String} {tokens : List Token} (h : scan source = .ok tokens) :
    Settles (List.Forall₂ Group.Becomes (groups tokens)) (tokens.findSome? Token.refusal?)
      (read source) := by
  have hsettles := mapM_event_settles (scan_proper h)
  rw [(scan_attached h).grouped.whole] at hsettles
  rw [read_eq, h]
  exact hsettles

/-- A refusal points at its token. It is not that of a duration without a unit. -/
theorem Token.refusal?_eq_some {token : Token} {e : Error} (h : token.refusal? = some e) :
    e.col = token.col ∧ e.cause.stage = .events ∧ e.cause ≠ .orphanDuration := by
  unfold Token.refusal? at h
  split at h
  · cases h
    exact ⟨rfl, rfl, nofun⟩
  · split at h
    · rename_i cause hread
      cases h
      rcases readCommand_cause hread with rfl | rfl | rfl | rfl <;> exact ⟨rfl, rfl, nofun⟩
    · cases h
  · cases h

end Polyphony.Notation
