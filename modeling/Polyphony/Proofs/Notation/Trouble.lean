import Polyphony.Proofs.Notation.Joining

/-! # The first trouble

The column of an error is that of the first trouble in a composition. The text before it is the
beginning of a composition that would have been accepted.
-/
namespace Polyphony.Notation

/-- What completes the text in front of an error of the cut. An open chord needs its bracket, and a
pitch if it has none so far. -/
def closings : List String := ["", "]", "C4]"]

structure Error.At (col : Nat) (e : Error) : Prop where
  col : e.col = col
  stage : e.cause.stage = .tokens

/-- An error of the cut that points right behind the text `u`, where more text follows. -/
def Error.Behind (s : Tail) (u : List Char) (e : Error) : Prop :=
  ∃ t : Tail, s.Past u t ∧ t.chars ≠ [] ∧ e.At t.col

theorem Error.At.behind {col : Nat} {c : Char} {cs : List Char} {e : Error} (h : e.At col) :
    e.Behind ⟨col, c :: cs⟩ [] :=
  ⟨_, Tail.past_nil _, List.cons_ne_nil c cs, h⟩

theorem Error.Behind.append {s t : Tail} {u v : List Char} {e : Error} (hpast : s.Past u t)
    (h : e.Behind t v) : e.Behind s (u ++ v) := by
  obtain ⟨w, hw, hmore, hat⟩ := h
  exact ⟨w, hpast.trans hw, hmore, hat⟩

section

variable {start : Nat} {s : Tail} {e : Error}

theorem takeNumber_error (h : takeNumber start s = .error e) : e.At start := by
  unfold takeNumber at h
  dsimp only at h
  split at h
  · cases h
    exact ⟨rfl, rfl⟩
  · split at h
    · cases h
    · cases h
      exact ⟨rfl, rfl⟩

theorem takeDenominator_error (h : takeDenominator start s = .error e) : e.At start := by
  unfold takeDenominator at h
  split at h
  · exact takeNumber_error h
  · cases h

theorem takeDuration_error (h : takeDuration start s = .error e) : e.At start := by
  unfold takeDuration at h
  split at h
  · rename_i hnum
    cases h
    exact takeNumber_error hnum
  · split at h
    · rename_i hden
      cases h
      exact takeDenominator_error hden
    · split at h
      · cases h
      · cases h
        exact ⟨rfl, rfl⟩

theorem takeCommand_error (h : takeCommand start s = .error e) : e.At start := by
  unfold takeCommand at h
  dsimp only at h
  split at h
  · cases h
    exact ⟨rfl, rfl⟩
  · split at h
    · split at h
      · cases h
        exact ⟨rfl, rfl⟩
      · split at h
        · cases h
          exact ⟨rfl, rfl⟩
        · cases h
    · cases h
      exact ⟨rfl, rfl⟩

/-- A chord fails where it begins, or behind some of its pitches and blanks. -/
theorem chordPitches_error {col : Nat} {cs : List Char} (h : chordPitches start col cs = .error e) :
    e.At start ∨ ∃ gap pitches, Blank gap ∧ (∀ p ∈ pitches, IsPitch p.1.toList ∧ Blank p.2) ∧
      e.Behind ⟨col, cs⟩ (gap ++ chordText pitches) := by
  fun_induction chordPitches start col cs generalizing e with
  | case1 =>
    cases h
    exact .inl ⟨rfl, rfl⟩
  | case2 => cases h
  | case3 col c cs _ hc ih =>
    rcases ih h with hstart | ⟨gap, pitches, hgap, hp, hbehind⟩
    · exact .inl hstart
    · have hblank := hbehind.append (Tail.past_one (s := ⟨col, c :: cs⟩) rfl)
      exact .inr ⟨c :: gap, pitches, hgap.cons hc, hp, hblank⟩
  | case4 col c cs _ _ hl text ht =>
    cases h
    have hat : Error.At col ⟨.missingOctave (String.ofList text), col⟩ := ⟨rfl, rfl⟩
    exact .inr ⟨[], [], blank_nil, by simp, hat.behind⟩
  | case5 col c cs _ _ hl text rest ht e' hrest ih =>
    cases h
    rcases ih hrest with hstart | ⟨gap, pitches, hgap, hp, hbehind⟩
    · exact .inl hstart
    · have htext : Tail.Past ⟨col, c :: cs⟩ text ⟨col + text.length, rest⟩ :=
        ⟨(takePitch_append ht).symm, rfl⟩
      refine .inr ⟨[], (String.ofList text, gap) :: pitches, blank_nil, ?_, ?_⟩
      · intro p hmem
        rcases List.mem_cons.mp hmem with rfl | hmem
        · rw [String.toList_ofList]
          exact ⟨isPitch_of_takePitch hl ht, hgap⟩
        · exact hp p hmem
      · simpa [chordText] using hbehind.append htext
  | case6 => cases h
  | case7 col c cs _ _ hl =>
    cases h
    have hat : Error.At col ⟨.unexpectedInChord c, col⟩ := ⟨rfl, rfl⟩
    exact .inr ⟨[], [], blank_nil, by simp, hat.behind⟩

end

/-- The text in front of an error of the cut, once it is closed, is a row and blanks behind it. -/
def Begun (attached : Bool) (s : Tail) (e : Error) : Prop :=
  ∃ u, ∃ closing ∈ closings, ∃ pieces tail, e.Behind s u ∧ Row attached s.col pieces ∧
    Blank tail ∧ u ++ closing.toList = spelled pieces ++ tail

theorem Error.At.begun {attached : Bool} {col : Nat} {c : Char} {cs : List Char} {e : Error}
    (h : e.At col) : Begun attached ⟨col, c :: cs⟩ e :=
  ⟨[], "", by simp [closings], [], [], h.behind, .nil, blank_nil, rfl⟩

theorem isPitch_c4 : IsPitch "C4".toList :=
  ⟨'C', [], '4', [], rfl, rfl, .inl rfl, rfl, .inl rfl⟩

/-- An open chord can be closed. -/
theorem begun_chord {attached : Bool} {col : Nat} {cs gap : List Char} {e : Error}
    {pitches : List (String × List Char)} (hgap : Blank gap)
    (hp : ∀ p ∈ pitches, IsPitch p.1.toList ∧ Blank p.2)
    (h : e.Behind ⟨col + 1, cs⟩ (gap ++ chordText pitches)) :
    Begun attached ⟨col, '[' :: cs⟩ e := by
  have hbehind := h.append (Tail.past_one (s := ⟨col, '[' :: cs⟩) rfl)
  have hrow {names : List String} {u : List Char} (hspells : Spells (.chord names) u) :
      Row attached col [⟨[], u, ⟨.chord names, col⟩⟩] :=
    .cons ⟨blank_nil, hspells, rfl, nofun⟩ .nil
  by_cases hne : pitches = []
  · subst hne
    have hspells : Spells _ ('[' :: (gap ++ (chordText [("C4", [])] ++ [']']))) :=
      .chord hgap (by simp) (by simpa using ⟨isPitch_c4, blank_nil⟩)
    exact ⟨_, "C4]", by simp [closings], _, [], hbehind, hrow hspells, blank_nil,
      by simp [chordText]⟩
  · exact ⟨_, "]", by simp [closings], _, [], hbehind, hrow (.chord hgap hne hp), blank_nil,
      by simp⟩

theorem takeUnit_error {attached : Bool} {col : Nat} {c : Char} {cs : List Char} {e : Error}
    (h : takeUnit attached col c cs = .error e) : Begun attached ⟨col, c :: cs⟩ e := by
  unfold takeUnit at h
  split at h
  · cases h
  split at h
  · split at h
    · cases h
      exact Error.At.begun ⟨rfl, rfl⟩
    · cases h
  split at h
  · rename_i hc
    obtain rfl := hc
    split at h
    · rename_i hchord
      cases h
      rcases chordPitches_error hchord with hat | ⟨gap, pitches, hgap, hp, hbehind⟩
      · exact hat.begun
      · exact begun_chord hgap hp hbehind
    · cases h
      exact Error.At.begun ⟨rfl, rfl⟩
    · cases h
  split at h
  · split at h
    · exact (takeDuration_error h).begun
    · cases h
      exact Error.At.begun ⟨rfl, rfl⟩
  split at h
  · exact (takeCommand_error h).begun
  · cases h
    exact Error.At.begun ⟨rfl, rfl⟩

theorem scanFrom_error {attached : Bool} {s : Tail} {done : Array Token} {e : Error}
    (h : scanFrom attached s done = .error e) : Begun attached s e := by
  fun_induction scanFrom attached s done with
  | case1 => cases h
  | case2 attached s done c cs hs hc ih =>
    obtain ⟨u, closing, hclosing, pieces, tail, hbehind, hrow, htail, htext⟩ := ih h
    obtain ⟨pieces', tail', hrow', htail', hchars, -⟩ := hrow.blank hc htail
    refine ⟨c :: u, closing, hclosing, pieces', tail', hbehind.append (Tail.past_one hs), hrow',
      htail', ?_⟩
    rw [List.cons_append, htext, hchars]
  | case3 attached s done c cs hs hc e' hunit =>
    cases h
    rcases s with ⟨col, chars⟩
    subst hs
    exact takeUnit_error hunit
  | case4 attached s done c cs hs hc x after hunit ih =>
    obtain ⟨u, closing, hclosing, pieces, tail, hbehind, hrow, htail, htext⟩ := ih h
    obtain ⟨v, hspells, hpast, hattached⟩ := takeUnit_sound hunit
    rcases s with ⟨col, chars⟩
    subst hs
    rw [hpast.col] at hrow
    refine ⟨v ++ u, closing, hclosing, ⟨[], v, ⟨x, col⟩⟩ :: pieces, tail, hbehind.append hpast,
      .cons ⟨blank_nil, hspells, rfl, fun hx => ⟨rfl, hattached hx⟩⟩ hrow, htail, ?_⟩
    rw [List.append_assoc, htext]
    simp

/-- An error of the cut points into the text, and the text before it can be closed. -/
theorem scan_error {source : String} {e : Error} (h : scan source = .error e) :
    e.cause.stage = .tokens ∧ 1 ≤ e.col ∧ e.col ≤ source.toList.length ∧
      ∃ closing ∈ closings, ∃ tokens,
        scan (String.ofList (source.toList.take (e.col - 1)) ++ closing) = .ok tokens := by
  obtain ⟨u, closing, hclosing, pieces, tail, ⟨t, hpast, hmore, hat⟩, hrow, htail, htext⟩ :=
    scanFrom_error h
  have hchars : source.toList = u ++ t.chars := hpast.chars
  have hcol : e.col = 1 + u.length := hat.col.trans hpast.col
  have hrest : 0 < t.chars.length := List.length_pos_iff.mpr hmore
  have hlength : source.toList.length = u.length + t.chars.length := by
    rw [hchars, List.length_append]
  have htake : source.toList.take (e.col - 1) = u := by
    rw [hcol, Nat.add_sub_cancel_left, hchars, List.take_left']
    rfl
  refine ⟨hat.stage, by omega, by omega, closing, hclosing, pieces.map Piece.token, ?_⟩
  rw [htake]
  exact scan_eq_ok_iff.mpr ⟨pieces, tail, by simpa using htext, hrow, htail, rfl⟩

section

variable {α β : Type} {e : Error}

theorem bind_eq_error {x : Except Error α} {f : α → Except Error β} :
    x >>= f = .error e ↔ x = .error e ∨ ∃ a, x = .ok a ∧ f a = .error e := by
  cases x with
  | error e' => simp [bind, Except.bind]
  | ok a => simp [bind, Except.bind]

/-- The first element of a list fails, or the rest behind it. -/
theorem mapM_cons_error {f : α → Except Error β} {a : α} {l : List α}
    (h : (a :: l).mapM f = .error e) :
    f a = .error e ∨ ∃ b, f a = .ok b ∧ l.mapM f = .error e := by
  rw [List.mapM_cons] at h
  rcases bind_eq_error.mp h with ha | ⟨b, hb, hrest⟩
  · exact .inl ha
  · rcases bind_eq_error.mp hrest with hl | ⟨bs, -, hpure⟩
    · exact .inr ⟨b, hb, hl⟩
    · cases hpure

theorem exists_mem_of_mapM_error {f : α → Except Error β} {l : List α}
    (h : l.mapM f = .error e) : ∃ a ∈ l, f a = .error e := by
  induction l with
  | nil => cases h
  | cons a l ih =>
    rcases mapM_cons_error h with ha | ⟨b, -, hl⟩
    · exact ⟨a, by simp, ha⟩
    · obtain ⟨a', hmem, ha'⟩ := ih hl
      exact ⟨a', by simp [hmem], ha'⟩

end

/-- An error that points at a token but not at the way it is written. -/
structure Error.Of (token : Token) (e : Error) : Prop where
  col : e.col = token.col
  stage : e.cause.stage ≠ .tokens

section

variable {token : Token} {e : Error}

theorem pitchAt_error {pitch : String} (h : pitchAt token.col pitch = .error e) : e.Of token := by
  rw [pitchAt, frequency?] at h
  split at h
  · cases h
  · split at h
    · cases h
    · cases h
      exact ⟨rfl, by simp [Cause.stage]⟩

theorem readCommand_cause {key value : String} {cause : Cause}
    (h : readCommand key value = .error cause) :
    cause = .tempoValue value ∨ cause = .dynamicsValue value ∨ cause = .centsValue value ∨
      cause = .unknownKey key := by
  unfold readCommand at h
  dsimp only at h
  split at h
  · cases h
  · cases h
  · cases h
  · split at h
    · cases h
    · cases h
      exact .inl rfl
  · split at h
    · cases h
    · cases h
      exact .inr (.inl rfl)
  · split at h
    · cases h
    · cases h
      exact .inr (.inr (.inl rfl))
  · cases h
    exact .inr (.inr (.inr rfl))

theorem readCommand_error {key value : String} {cause : Cause}
    (h : readCommand key value = .error cause) : cause.stage = .events := by
  rcases readCommand_cause h with rfl | rfl | rfl | rfl <;> rfl

theorem commandAt_error {key value : String} (h : commandAt token.col key value = .error e) :
    e.Of token := by
  rw [commandAt] at h
  cases hread : readCommand key value with
  | ok r =>
    rw [hread] at h
    cases h
  | error cause =>
    rw [hread] at h
    cases h
    exact ⟨rfl, by simp [readCommand_error hread]⟩

theorem Token.meaning_error (h : token.meaning = .error e) : e.Of token := by
  unfold Token.meaning at h
  split at h
  · cases h
  · rcases bind_eq_error.mp h with hpitch | ⟨_, -, hpure⟩
    · exact pitchAt_error hpitch
    · cases hpure
  · rcases bind_eq_error.mp h with hpitches | ⟨_, -, hpure⟩
    · obtain ⟨pitch, -, hpitch⟩ := exists_mem_of_mapM_error hpitches
      exact pitchAt_error hpitch
    · cases hpure
  · rcases bind_eq_error.mp h with hcommand | ⟨_, -, hpure⟩
    · exact commandAt_error hcommand
    · cases hpure
  · cases h
    exact ⟨rfl, by simp [Cause.stage]⟩

theorem Group.event_none {head : Head} (h : token.meaning = .ok head) :
    ∃ event, Group.event ⟨token, none⟩ = .ok event := by
  rw [Group.event, h]
  cases head with
  | command command => exact ⟨_, rfl⟩
  | sound freqs => exact ⟨_, rfl⟩

/-- A group fails at its token, or at the duration behind it. -/
theorem Group.event_error {length : Option Token} (h : Group.event ⟨token, length⟩ = .error e) :
    e.Of token ∨ ∃ d event, length = some d ∧ e.Of d ∧ Group.event ⟨token, none⟩ = .ok event := by
  rw [Group.event] at h
  rcases bind_eq_error.mp h with hmeaning | ⟨head, hhead, hevent⟩
  · exact .inl (Token.meaning_error hmeaning)
  · obtain ⟨event, hnone⟩ := Group.event_none hhead
    cases head with
    | command command => cases hevent
    | sound freqs =>
      rcases length with _ | ⟨lexeme, col⟩
      · cases hevent
      · cases lexeme with
        | duration num den =>
          cases hfraction : Beats.ofFraction? num den with
          | some beats =>
            simp only [Group.beats, Option.toList_some, takeLength, hfraction] at hevent
            cases hevent
          | none =>
            simp only [Group.beats, Option.toList_some, takeLength, hfraction] at hevent
            cases hevent
            exact .inr ⟨_, event, rfl, ⟨rfl, by simp [Cause.stage]⟩, hnone⟩
        | _ => cases hevent

end

theorem meaning_of_groups {g : Group} {tokens before : List Token} {event : Event}
    {es : List Event} (hgroups : groups tokens = g :: groups before) (hevent : g.event = .ok event)
    (hes : meaning before = .ok es) : meaning tokens = .ok (event :: es) := by
  rw [meaning] at hes
  rw [meaning, hgroups, List.mapM_cons, hevent, hes]
  rfl

/-- A row of tokens that has no meaning fails at a token. What stands before that has one. -/
theorem meaning_error {tokens : List Token} {e : Error} (h : meaning tokens = .error e) :
    ∃ before token after es, tokens = before ++ token :: after ∧ e.Of token ∧
      meaning before = .ok es := by
  rw [meaning] at h
  -- group by group; a unit whose duration fails stands before that alone
  fun_induction groups tokens with
  | case1 => cases h
  | case2 token =>
    rcases mapM_cons_error h with hevent | ⟨_, _, hnil⟩
    · rcases Group.event_error hevent with htoken | ⟨_, _, hnone, _⟩
      · exact ⟨[], token, [], [], rfl, htoken, rfl⟩
      · cases hnone
    · cases hnil
  | case3 token next rest hnext ih =>
    rcases mapM_cons_error h with hevent | ⟨event, hevent, hrest⟩
    · rcases Group.event_error hevent with htoken | ⟨d, event, hd, hof, hevent⟩
      · exact ⟨[], token, next :: rest, [], rfl, htoken, rfl⟩
      · cases hd
        have hone : meaning [token] = .ok [event] :=
          @meaning_of_groups _ _ [] _ _ rfl hevent rfl
        exact ⟨[token], next, rest, [event], rfl, hof, hone⟩
    · obtain ⟨before, t, after, es, rfl, hof, hes⟩ := ih hrest
      exact ⟨token :: next :: before, t, after, event :: es, rfl, hof,
        meaning_of_groups (by rw [groups, if_pos hnext]) hevent hes⟩
  | case4 token next rest hnext ih =>
    rcases mapM_cons_error h with hevent | ⟨event, hevent, hrest⟩
    · rcases Group.event_error hevent with htoken | ⟨_, _, hnone, _⟩
      · exact ⟨[], token, next :: rest, [], rfl, htoken, rfl⟩
      · cases hnone
    · obtain ⟨before, t, after, es, hbefore, hof, hes⟩ := ih hrest
      have hgroups : groups (token :: before) = ⟨token, none⟩ :: groups before := by
        cases before with
        | nil => rfl
        | cons first before =>
          obtain rfl : next = first := (List.cons.inj hbefore).1
          rw [groups, if_neg hnext]
      exact ⟨token :: before, t, after, event :: es, congrArg (token :: ·) hbefore, hof,
        meaning_of_groups hgroups hevent hes⟩

/-- The columns of the pieces of a decomposition go up. -/
theorem Piece.Fits.col_lt {before mid : List Piece} {p q : Piece} (h : p.Fits before)
    (h' : q.Fits (before ++ p :: mid)) : p.token.col < q.token.col := by
  obtain ⟨c, cs, hspelling, -, -⟩ := h.spells.eq_cons
  rw [h.col, h'.col]
  simp only [spelled_append, spelled_cons, List.length_append, hspelling, List.length_cons]
  omega

/-- The text before a token is cut into the tokens before it, and those are the ones that stand at
the columns before it. -/
theorem scan_before {source : String} {before after : List Token} {t : Token}
    (h : scan source = .ok (before ++ t :: after)) :
    1 ≤ t.col ∧ t.col ≤ source.toList.length ∧
      scan (String.ofList (source.toList.take (t.col - 1))) = .ok before ∧
      (before ++ t :: after).filter (·.col < t.col) = before := by
  obtain ⟨pieces, tail, htext, hrow, -, htokens⟩ := scan_eq_ok_iff.mp h
  obtain ⟨pb, rest, rfl, rfl, hrest⟩ := List.map_eq_append_iff.mp htokens
  obtain ⟨p, pa, rfl, rfl, rfl⟩ := List.map_eq_cons_iff.mp hrest
  have hfits := (row_iff_fits [] _).mp hrow
  have hp : p.Fits pb := hfits pb p pa rfl
  have hchars : source.toList = spelled pb ++ p.gap ++ (p.spelling ++ (spelled pa ++ tail)) := by
    simpa using htext
  have htake : source.toList.take (p.token.col - 1) = spelled pb ++ p.gap := by
    rw [hp.col, Nat.add_sub_cancel_left, hchars, List.take_left']
    rfl
  have hlength : p.token.col ≤ source.toList.length := by
    obtain ⟨c, cs, hspelling, -, -⟩ := hp.spells.eq_cons
    rw [hp.col, hchars, hspelling]
    simp only [List.length_append, List.length_cons]
    omega
  have hrow' : Row false 1 pb := by
    refine (row_iff_fits [] pb).mpr fun mid q post hsplit => ?_
    exact hfits mid q (post ++ p :: pa) (by simp [hsplit])
  have hlow (t : Token) (ht : t ∈ pb.map Piece.token) : t.col < p.token.col := by
    obtain ⟨q, hq, rfl⟩ := List.mem_map.mp ht
    obtain ⟨mid, post, rfl⟩ := List.append_of_mem hq
    exact (hfits mid q (post ++ p :: pa) (by simp)).col_lt hp
  have hhigh (t : Token) (ht : t ∈ p.token :: pa.map Piece.token) : ¬ t.col < p.token.col := by
    rcases List.mem_cons.mp ht with rfl | ht
    · exact Nat.lt_irrefl _
    · obtain ⟨q, hq, rfl⟩ := List.mem_map.mp ht
      obtain ⟨mid, post, rfl⟩ := List.append_of_mem hq
      exact Nat.lt_asymm (hp.col_lt (hfits (pb ++ p :: mid) q post (by simp)))
  refine ⟨by rw [hp.col]; omega, hlength, ?_, ?_⟩
  · rw [htake]
    exact scan_eq_ok_iff.mpr ⟨pb, p.gap, by simp, hrow', hp.gap, rfl⟩
  · rw [List.filter_append, List.filter_eq_self.mpr (by simpa using hlow),
      List.filter_eq_nil_iff.mpr (by simpa using hhigh), List.append_nil]

/-- A composition is refused at the column of its first trouble. The text before a trouble with a
token can be closed so that it is cut into tokens. A trouble with what tokens mean comes up only if
all of them are there, and the text before it plays the tokens before it. -/
theorem refused_at_first_trouble (source : String) (desk : Desk) (hdesk : desk.cache.Sound)
    (e : Error) (h : outcome (events source desk) = .error e) :
    1 ≤ e.col ∧ e.col ≤ source.toList.length ∧
    (e.cause.stage = .tokens → ∃ closing ∈ ["", "]", "C4]"], ∃ tokens,
      scan (String.ofList (source.toList.take (e.col - 1)) ++ closing) = .ok tokens) ∧
    (e.cause.stage ≠ .tokens → ∃ tokens es, scan source = .ok tokens ∧
      meaning (tokens.filter (·.col < e.col)) = .ok es ∧
      outcome (events (String.ofList (source.toList.take (e.col - 1))) desk) = .ok es) ∧
    ∀ e', scan source = .error e' → e = e' ∧ e.cause.stage = .tokens := by
  rw [outcome_events hdesk, read_eq] at h
  rcases bind_eq_error.mp h with hscan | ⟨tokens, hscan, hmeaning⟩
  · obtain ⟨hstage, hpos, hlength, hclosing⟩ := scan_error hscan
    refine ⟨hpos, hlength, fun _ => hclosing, fun hnot => absurd hstage hnot, fun e' he' => ?_⟩
    rw [hscan] at he'
    exact ⟨Except.error.inj he', hstage⟩
  · obtain ⟨before, token, after, es, rfl, hof, hes⟩ := meaning_error hmeaning
    obtain ⟨hpos, hlength, hbefore, hfilter⟩ := scan_before hscan
    rw [hof.col]
    refine ⟨hpos, hlength, fun hstage => absurd hstage hof.stage, fun _ => ?_, fun e' he' => ?_⟩
    · refine ⟨_, es, hscan, by rw [hfilter, hes], ?_⟩
      rw [outcome_events hdesk, read_eq, hbefore]
      exact hes
    · rw [hscan] at he'
      cases he'

/-- A chord goes wrong behind its first pitch, and a bracket there would have closed it. A rest has
a length that cannot be, and without that it would have been read. -/
theorem refused_at_first_trouble_chord :
    (outcome (events "[C4 x" .empty) = .error ⟨.unexpectedInChord 'x', 5⟩ ∧
      ∃ closing ∈ ["", "]", "C4]"], ∃ tokens, scan ("[C4 " ++ closing) = .ok tokens) ∧
    outcome (events "r{1/0}" .empty) = .error ⟨.zeroDenominator, 2⟩ ∧
      ∃ es, meaning [⟨.rest, 1⟩] = .ok es ∧ outcome (events "r" .empty) = .ok es := by
  have hchord : outcome (events "[C4 x" .empty) = .error ⟨.unexpectedInChord 'x', 5⟩ := by
    with_unfolding_all rfl
  have hscan : scan "r{1/0}" = .ok [⟨.rest, 1⟩, ⟨.duration 1 0, 2⟩] := by
    with_unfolding_all rfl
  have hrest : outcome (events "r{1/0}" .empty) = .error ⟨.zeroDenominator, 2⟩ := by
    rw [outcome_events PitchCache.sound_empty, read_eq, hscan]
    rfl
  obtain ⟨-, -, hclosing, -⟩ :=
    refused_at_first_trouble "[C4 x" .empty PitchCache.sound_empty _ hchord
  obtain ⟨-, -, -, hbefore, -⟩ :=
    refused_at_first_trouble "r{1/0}" .empty PitchCache.sound_empty _ hrest
  obtain ⟨tokens, es, htokens, hmeaning, hes⟩ := hbefore nofun
  rw [hscan] at htokens
  cases htokens
  exact ⟨⟨hchord, hclosing rfl⟩, hrest, es, hmeaning, hes⟩

end Polyphony.Notation
