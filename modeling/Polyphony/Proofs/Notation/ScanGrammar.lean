import Polyphony.Proofs.Notation.Rows
import Polyphony.Proofs.Notation.Units

/-! # The cut follows the grammar

The cut finds a row of pieces in a text, and it goes through every row that is there. So a
composition is cut into tokens exactly when the grammar decomposes it, and the grammar is
unambiguous.
-/
namespace Polyphony.Notation

theorem blank_nil : Blank [] := fun _ hc => absurd hc List.not_mem_nil

theorem Blank.cons {c : Char} {gap : List Char} (hc : Text.isBlank c = true) (h : Blank gap) :
    Blank (c :: gap) := by
  intro d hd
  rcases List.mem_cons.mp hd with rfl | hd
  · exact hc
  · exact h d hd

/-- A row one column further back, behind one more blank. -/
theorem Row.blank {attached : Bool} {col : Nat} {c : Char} {pieces : List Piece} {tail : List Char}
    (hc : Text.isBlank c = true) (h : Row false (col + 1) pieces) (htail : Blank tail) :
    ∃ pieces' tail', Row attached col pieces' ∧ Blank tail' ∧
      c :: (spelled pieces ++ tail) = spelled pieces' ++ tail' ∧
      pieces'.map Piece.token = pieces.map Piece.token := by
  cases h with
  | nil => exact ⟨[], c :: tail, .nil, htail.cons hc, rfl, rfl⟩
  | @cons _ _ p pieces hstands hrow =>
    refine ⟨⟨c :: p.gap, p.spelling, p.token⟩ :: pieces, tail, .cons ?_ hrow, htail, by simp, rfl⟩
    refine ⟨hstands.gap.cons hc, hstands.spells, ?_, fun hp => ?_⟩
    · rw [hstands.col, List.length_cons, Nat.add_assoc, Nat.add_comm 1]
    · cases (hstands.duration hp).2

/-- What has been cut into tokens is a row of pieces and blanks behind it. -/
theorem scanFrom_sound {attached : Bool} {s : Tail} {done : Array Token} {tokens : List Token}
    (h : scanFrom attached s done = .ok tokens) :
    ∃ pieces tail, Row attached s.col pieces ∧ Blank tail ∧
      s.chars = spelled pieces ++ tail ∧ tokens = done.toList ++ pieces.map Piece.token := by
  fun_induction scanFrom attached s done with
  | case1 attached s done hs =>
    obtain rfl := Except.ok.inj h
    exact ⟨[], [], .nil, blank_nil, hs, by simp⟩
  | case2 attached s done c cs hs hc ih =>
    -- the blank joins the gap of the first piece behind it, or the tail
    rcases ih h with ⟨pieces, tail, hrow, htail, rfl, rfl⟩
    rcases hrow.blank hc htail with ⟨pieces', tail', hrow', htail', hchars, htokens⟩
    exact ⟨pieces', tail', hrow', htail', hs.trans hchars, by rw [htokens]⟩
  | case3 => cases h
  | case4 attached s done c cs hs hc x after hunit ih =>
    rcases ih h with ⟨pieces, tail, hrow, htail, hchars, rfl⟩
    rcases takeUnit_sound hunit with ⟨u, hspells, hpast, hattached⟩
    rw [hpast.col] at hrow
    refine ⟨⟨[], u, ⟨x, s.col⟩⟩ :: pieces, tail, .cons ?_ hrow, htail, ?_, by simp⟩
    · exact ⟨blank_nil, hspells, rfl, fun hx => ⟨rfl, hattached hx⟩⟩
    · have htext : c :: cs = u ++ after.chars := hpast.chars
      rw [hs, htext, hchars]
      simp

/-- A spelling begins with a character that is no blank and that no cents can claim. -/
theorem Spells.eq_cons {x : Lexeme} {u : List Char} (h : Spells x u) :
    ∃ c cs, u = c :: cs ∧ Text.isBlank c = false ∧ ∀ rest, Calm (c :: rest) := by
  cases h with
  | note hp =>
    rcases hp.eq_cons with ⟨letter, more, hletter, hl⟩
    exact ⟨letter, more, hletter, isBlank_of_isLetter hl, calm_of_isLetter hl⟩
  | rest | chord | whole | fraction | command =>
    exact ⟨_, _, rfl, by decide, fun _ => ⟨by decide, by decide, by decide⟩⟩

theorem Row.calm {attached : Bool} {col : Nat} {pieces : List Piece} {rest : List Char}
    (h : Row attached col pieces) (hrest : Calm rest) : Calm (spelled pieces ++ rest) := by
  cases h with
  | nil => exact hrest
  | @cons _ _ p pieces hstands hrow =>
    rcases hstands.spells.eq_cons with ⟨c, cs, hu, -, hcalm⟩
    rw [spelled_cons, List.append_assoc, hu]
    exact hstands.gap.calm_append (hcalm _)

theorem scanFrom_nil (attached : Bool) (col : Nat) (done : Array Token) :
    scanFrom attached ⟨col, []⟩ done = .ok done.toList := by
  rw [scanFrom]

theorem scanFrom_blank {c : Char} (hc : Text.isBlank c = true) (attached : Bool) (col : Nat)
    (cs : List Char) (done : Array Token) :
    scanFrom attached ⟨col, c :: cs⟩ done = scanFrom false ⟨col + 1, cs⟩ done := by
  rw [scanFrom]
  exact if_pos hc

theorem scanFrom_unit {attached : Bool} {col : Nat} {c : Char} {cs : List Char} {x : Lexeme}
    {t : Tail} (hc : Text.isBlank c = false) (h : takeUnit attached col c cs = .ok (x, t))
    (done : Array Token) :
    scanFrom attached ⟨col, c :: cs⟩ done = scanFrom x.takesDuration t (done.push ⟨x, col⟩) := by
  rw [scanFrom]
  simp only [hc, Bool.false_eq_true, if_false]
  split
  · rename_i hunit
    rw [hunit] at h
    cases h
  · rename_i hunit
    rcases Prod.mk.inj (Except.ok.inj (hunit.symm.trans h)) with ⟨rfl, rfl⟩
    rfl

/-- Blanks are passed over. They may end the attachment of a unit before them. -/
theorem scanFrom_gap {gap : List Char} (h : Blank gap) (attached : Bool) (col : Nat)
    (cs : List Char) :
    ∃ attached', (gap = [] → attached' = attached) ∧
      ∀ done, scanFrom attached ⟨col, gap ++ cs⟩ done =
        scanFrom attached' ⟨col + gap.length, cs⟩ done := by
  induction gap generalizing attached col with
  | nil => exact ⟨attached, fun _ => rfl, fun _ => rfl⟩
  | cons c gap ih =>
    rcases ih (fun d hd => h d (by simp [hd])) false (col + 1) with ⟨attached', -, hgap⟩
    refine ⟨attached', by simp, fun done => ?_⟩
    rw [List.cons_append, scanFrom_blank (h c (by simp)), hgap, List.length_cons, Nat.add_assoc,
      Nat.add_comm 1]

/-- The cut goes through one piece in front of a calm text. -/
theorem Piece.Stands.scanFrom_eq {attached : Bool} {col : Nat} {p : Piece} {rest : List Char}
    (h : p.Stands attached col) (hrest : Calm rest) (done : Array Token) :
    scanFrom attached ⟨col, p.gap ++ (p.spelling ++ rest)⟩ done =
      scanFrom p.token.lexeme.takesDuration ⟨p.token.col + p.spelling.length, rest⟩
        (done.push p.token) := by
  rcases scanFrom_gap h.gap attached col (p.spelling ++ rest) with ⟨attached', hsame, hgap⟩
  rcases h.spells.eq_cons with ⟨c, cs, hu, hc, -⟩
  have hattached (hp : p.token.lexeme.isDuration = true) : attached' = true :=
    (hsame (h.duration hp).1).trans (h.duration hp).2
  have hpast : Tail.Past ⟨p.token.col, c :: (cs ++ rest)⟩ p.spelling
      ⟨p.token.col + p.spelling.length, rest⟩ := ⟨by rw [hu]; rfl, rfl⟩
  have hunit := scanFrom_unit hc (takeUnit_eq h.spells hattached hrest hpast) done
  rw [← List.cons_append, ← hu] at hunit
  rw [hgap, ← h.col, hunit]

/-- The cut goes through a row in front of a calm text. -/
theorem Row.scanFrom_eq {attached : Bool} {col : Nat} {pieces : List Piece} {rest : List Char}
    (h : Row attached col pieces) (hrest : Calm rest) :
    ∃ attached', ∀ done, scanFrom attached ⟨col, spelled pieces ++ rest⟩ done =
      scanFrom attached' ⟨col + (spelled pieces).length, rest⟩
        (done ++ (pieces.map Piece.token).toArray) := by
  induction h with
  | @nil attached col => exact ⟨attached, fun done => by simp⟩
  | @cons attached col p pieces hstands hrow ih =>
    rcases ih with ⟨attached', hpieces⟩
    refine ⟨attached', fun done => ?_⟩
    rw [spelled_cons, List.append_assoc, List.append_assoc,
      hstands.scanFrom_eq (hrow.calm hrest), hpieces, hstands.col]
    simp [Nat.add_assoc]

/-- What follows a row and blanks is cut behind the tokens of the row. -/
theorem Row.scanFrom_append {attached : Bool} {col : Nat} {pieces : List Piece}
    {tail rest : List Char} (h : Row attached col pieces) (htail : Blank tail)
    (hrest : Calm rest) :
    ∃ attached', ∀ done, scanFrom attached ⟨col, spelled pieces ++ tail ++ rest⟩ done =
      scanFrom attached' ⟨col + (spelled pieces ++ tail).length, rest⟩
        (done ++ (pieces.map Piece.token).toArray) := by
  rcases h.scanFrom_eq (htail.calm_append hrest) with ⟨attached', hpieces⟩
  obtain ⟨attached'', -, hgap⟩ := scanFrom_gap htail attached' (col + (spelled pieces).length) rest
  refine ⟨attached'', fun done => ?_⟩
  rw [List.append_assoc, hpieces, hgap, List.length_append, Nat.add_assoc]

theorem Row.scanFrom_end {attached : Bool} {col : Nat} {pieces : List Piece} {tail : List Char}
    (h : Row attached col pieces) (htail : Blank tail) (done : Array Token) :
    scanFrom attached ⟨col, spelled pieces ++ tail⟩ done =
      .ok (done.toList ++ pieces.map Piece.token) := by
  have hnil : Calm [] := trivial
  rcases h.scanFrom_append htail hnil with ⟨attached', hcut⟩
  rw [← List.append_nil (spelled pieces ++ tail), hcut, scanFrom_nil]
  simp

theorem scan_eq_ok_iff {source : String} {tokens : List Token} : scan source = .ok tokens ↔
    ∃ pieces tail, source.toList = spelled pieces ++ tail ∧ Row false 1 pieces ∧ Blank tail ∧
      pieces.map Piece.token = tokens := by
  constructor
  · intro h
    rcases scanFrom_sound h with ⟨pieces, tail, hrow, htail, hchars, htokens⟩
    exact ⟨pieces, tail, hchars, hrow, htail, by simp [htokens]⟩
  · rintro ⟨pieces, tail, hchars, hrow, htail, rfl⟩
    rw [scan, hchars, hrow.scanFrom_end htail]
    rfl

theorem Blank.append_cons_inj {gap gap' cs cs' : List Char} {c c' : Char} (h : Blank gap)
    (h' : Blank gap') (hc : Text.isBlank c = false) (hc' : Text.isBlank c' = false)
    (heq : gap ++ c :: cs = gap' ++ c' :: cs') : gap = gap' ∧ c :: cs = c' :: cs' := by
  have hgap := congrArg (List.takeWhile Text.isBlank) heq
  rw [List.takeWhile_append_of_pos h, List.takeWhile_append_of_pos h',
    List.takeWhile_cons_of_neg (by simp [hc]), List.takeWhile_cons_of_neg (by simp [hc']),
    List.append_nil, List.append_nil] at hgap
  subst hgap
  exact ⟨rfl, List.append_cancel_left heq⟩

theorem Piece.Stands.not_blank {attached : Bool} {col : Nat} {p : Piece}
    (h : p.Stands attached col) (rest : List Char) : ¬ Blank (p.gap ++ (p.spelling ++ rest)) := by
  rcases h.spells.eq_cons with ⟨c, cs, hu, hc, -⟩
  intro hblank
  have := hblank c (by simp [hu])
  rw [hc] at this
  cases this

/-- Two pieces that begin at one place and a text are one. -/
theorem Piece.Stands.unique {attached : Bool} {col : Nat} {p q : Piece} {rest rest' : List Char}
    (h : p.Stands attached col) (h' : q.Stands attached col) (hrest : Calm rest)
    (hrest' : Calm rest')
    (heq : p.gap ++ (p.spelling ++ rest) = q.gap ++ (q.spelling ++ rest')) :
    p = q ∧ rest = rest' := by
  rcases h.spells.eq_cons with ⟨c, cs, hu, hc, -⟩
  rcases h'.spells.eq_cons with ⟨c', cs', hu', hc', -⟩
  have hcut : p.gap = q.gap ∧ p.spelling ++ rest = q.spelling ++ rest' := by
    rw [hu, hu'] at heq ⊢
    exact h.gap.append_cons_inj h'.gap hc hc' heq
  rcases hcut with ⟨hgap, htext⟩
  have hcol : p.token.col = q.token.col := by rw [h.col, h'.col, hgap]
  have hchars : c :: (cs ++ rest) = p.spelling ++ rest := by rw [hu]; rfl
  -- both spellings are cut off the same text
  have hunit := takeUnit_eq h.spells (fun _ => rfl) hrest
    (Tail.Past.mk (s := ⟨p.token.col, _⟩) (t := ⟨_, rest⟩) hchars rfl)
  have hunit' := takeUnit_eq h'.spells (fun _ => rfl) hrest'
    (Tail.Past.mk (s := ⟨p.token.col, _⟩) (t := ⟨_, rest'⟩) (hchars.trans htext) rfl)
  rcases Prod.mk.inj (Except.ok.inj (hunit.symm.trans hunit')) with ⟨hlexeme, htail⟩
  obtain rfl : rest = rest' := congrArg Tail.chars htail
  have hspelling := List.append_cancel_right htext
  rcases p with ⟨_, _, _, _⟩
  rcases q with ⟨_, _, _, _⟩
  simp only at hgap hspelling hlexeme hcol
  rw [hgap, hspelling, hlexeme, hcol]
  exact ⟨rfl, rfl⟩

/-- Two rows that begin at one place and spell the same text are one. -/
theorem Row.unique {attached : Bool} {col : Nat} {pieces pieces' : List Piece}
    {tail tail' : List Char} (h : Row attached col pieces) (h' : Row attached col pieces')
    (htail : Blank tail) (htail' : Blank tail')
    (heq : spelled pieces ++ tail = spelled pieces' ++ tail') :
    pieces = pieces' ∧ tail = tail' := by
  -- along the first row; the second must have a piece wherever the first has one
  induction h generalizing pieces' with
  | nil =>
    cases h' with
    | nil => exact ⟨rfl, heq⟩
    | cons hstands _ =>
      rw [spelled_nil, spelled_cons, List.nil_append, List.append_assoc, List.append_assoc] at heq
      rw [heq] at htail
      exact absurd htail (hstands.not_blank _)
  | cons hstands hrow ih =>
    rw [spelled_cons, List.append_assoc, List.append_assoc] at heq
    cases h' with
    | nil =>
      rw [spelled_nil, List.nil_append] at heq
      rw [← heq] at htail'
      exact absurd htail' (hstands.not_blank _)
    | cons hstands' hrow' =>
      rw [spelled_cons, List.append_assoc, List.append_assoc] at heq
      obtain ⟨rfl, hrest⟩ := hstands.unique hstands' (hrow.calm htail.calm)
        (hrow'.calm htail'.calm) heq
      rcases ih hrow' hrest with ⟨rfl, rfl⟩
      exact ⟨rfl, rfl⟩

end Polyphony.Notation
