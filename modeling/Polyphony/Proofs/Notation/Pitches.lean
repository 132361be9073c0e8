import Polyphony.Proofs.Notation.Grammar

/-! # Pitches and chords at the front of a text

What is cut off the front of a text is a pitch or a chord by the grammar. In the other
direction a pitch is cut off whole, provided that the text behind it does not go on with a
sign or a digit, which cents could claim.
-/
namespace Polyphony.Notation

/-- `t` is what is left of `s` behind the text `u`. -/
structure Tail.Past (s : Tail) (u : List Char) (t : Tail) : Prop where
  chars : s.chars = u ++ t.chars
  col : t.col = s.col + u.length

theorem Tail.Past.trans {s t w : Tail} {u v : List Char} (h : s.Past u t) (h' : t.Past v w) :
    s.Past (u ++ v) w := by
  refine ⟨?_, ?_⟩
  · rw [h.chars, h'.chars, List.append_assoc]
  · rw [h'.col, h.col, List.length_append, Nat.add_assoc]

theorem Tail.past_cons {col : Nat} {c : Char} {cs u : List Char} {t : Tail} :
    Tail.Past ⟨col, c :: cs⟩ (c :: u) t ↔ Tail.Past ⟨col + 1, cs⟩ u t := by
  have hcol : col + (c :: u).length = col + 1 + u.length := by
    rw [List.length_cons, Nat.add_assoc, Nat.add_comm 1]
  constructor
  · intro h
    exact ⟨(List.cons.inj h.chars).2, h.col.trans hcol⟩
  · intro h
    exact ⟨congrArg (c :: ·) h.chars, h.col.trans hcol.symm⟩

/-- A text with a delimiter inside is passed in two stretches. -/
theorem Tail.past_append_cons {s t : Tail} {u v : List Char} {c : Char}
    (h : s.Past (u ++ c :: v) t) :
    ∃ col cs, s.Past u ⟨col, c :: cs⟩ ∧ Tail.Past ⟨col + 1, cs⟩ v t := by
  refine ⟨s.col + u.length, v ++ t.chars, ⟨?_, rfl⟩, ⟨rfl, ?_⟩⟩
  · rw [h.chars, List.append_assoc, List.cons_append]
  · rw [h.col, List.length_append, List.length_cons]
    dsimp only
    omega

theorem Tail.past_nil (s : Tail) : s.Past [] s := ⟨rfl, rfl⟩

theorem Tail.past_one {s : Tail} {c : Char} {cs : List Char} (h : s.chars = c :: cs) :
    s.Past [c] ⟨s.col + 1, cs⟩ := ⟨h, rfl⟩

/-- A text leaves one tail behind. -/
theorem Tail.Past.det {s t w : Tail} {u : List Char} (h : s.Past u t) (h' : s.Past u w) :
    t = w := by
  rcases t with ⟨_, _⟩
  rcases w with ⟨_, _⟩
  have hchars := List.append_cancel_left (h.chars.symm.trans h'.chars)
  have hcol := h.col.trans h'.col.symm
  simp only at hchars hcol
  rw [hchars, hcol]

theorem mem_takeWhile {p : Char → Bool} {cs : List Char} {c : Char} (h : c ∈ cs.takeWhile p) :
    p c = true :=
  List.all_eq_true.mp List.all_takeWhile c h

theorem Tail.run_past (p : Char → Bool) (s : Tail) : s.Past (s.run p).1 (s.run p).2 :=
  ⟨List.takeWhile_append_dropWhile.symm, rfl⟩

theorem Tail.run_stops {p : Char → Bool} {s : Tail} {c : Char} {cs : List Char}
    (h : (s.run p).2.chars = c :: cs) : p c = false := by
  have hstop := List.head?_dropWhile_not p s.chars
  rw [show s.chars.dropWhile p = c :: cs from h] at hstop
  exact hstop

/-- A row is cut off whole in front of a character that does not belong to it. -/
theorem Tail.run_eq {p : Char → Bool} {s t : Tail} {row cs : List Char} {c : Char}
    (hrow : ∀ c ∈ row, p c = true) (hc : p c = false) (ht : t.chars = c :: cs)
    (h : s.Past row t) : s.run p = (row, t) := by
  have htake : (s.run p).1 = row := by
    rw [Tail.run, h.chars, ht, List.takeWhile_append_of_pos hrow,
      List.takeWhile_cons_of_neg (by simp [hc]), List.append_nil]
  have hpast := s.run_past p
  rw [htake] at hpast
  exact Prod.ext htake (hpast.det h)

/-- A text that cents before it leave alone. -/
def Calm : List Char → Prop
  | [] => True
  | c :: _ => c ≠ '+' ∧ c ≠ '-' ∧ c.isDigit = false

theorem isAccidental_takeAccidental (cs : List Char) : IsAccidental (takeAccidental cs).1 := by
  unfold takeAccidental IsAccidental
  split <;> simp

/-- An accidental is cut off whole in front of an octave digit. -/
theorem takeAccidental_eq {accidental cs : List Char} {octave : Char}
    (h : IsAccidental accidental) (ho : octave.isDigit = true) :
    takeAccidental (accidental ++ octave :: cs) = (accidental, octave :: cs) := by
  have hb : octave ≠ 'b' := by
    rintro rfl
    cases ho
  rcases h with rfl | rfl | rfl | rfl | rfl
  · rw [List.nil_append]
    unfold takeAccidental
    split <;> simp_all
  · rfl
  · rfl
  -- a single flat would take a second one along
  · simp [takeAccidental, hb]
  · rfl

theorem isCents_takeCents (cs : List Char) : IsCents (takeCents cs).1 := by
  have hcents {sign : Char} {digits : List Char} (hsign : sign = '+' ∨ sign = '-')
      (hdigits : Digits digits) (hlength : digits.length ≤ 2) : IsCents (sign :: digits) :=
    .inr ⟨sign, digits, rfl, hsign, hdigits, hlength⟩
  unfold takeCents
  split
  · split
    · rename_i h
      split
      · split
        · exact hcents h.1 ⟨by simp, by simp_all⟩ (by simp)
        · exact hcents h.1 ⟨by simp, by simp_all⟩ (by simp)
      · exact hcents h.1 ⟨by simp, by simp_all⟩ (by simp)
    · exact .inl rfl
  · exact .inl rfl

/-- Cents are cut off whole in front of a calm text, also where there are none. -/
theorem takeCents_eq {cents rest : List Char} (h : IsCents cents) (hr : Calm rest) :
    takeCents (cents ++ rest) = (cents, rest) := by
  rcases h with rfl | ⟨sign, digits, rfl, hsign, ⟨hne, hdigits⟩, hlength⟩
  -- without cents the calm text must not open with a sign, behind one digit not with another
  · rcases rest with _ | ⟨c, _ | ⟨d, rest⟩⟩
    · rfl
    · rfl
    · simp [takeCents, hr.1, hr.2.1]
  · rcases digits with _ | ⟨d, _ | ⟨e, _ | ⟨_, _⟩⟩⟩
    · exact absurd rfl hne
    · rcases rest with _ | ⟨c, rest⟩
      · simp [takeCents, hsign, hdigits]
      · simp [takeCents, hsign, hdigits, hr.2.2]
    · simp [takeCents, hsign, hdigits]
    · simp at hlength

theorem isPitch_of_takePitch {letter : Char} {cs text rest : List Char}
    (hl : isLetter letter = true) (h : takePitch letter cs = .ok (text, rest)) : IsPitch text := by
  rcases takePitch_eq_ok_iff.mp h with ⟨octave, tail, -, ho, rfl, -⟩
  exact ⟨letter, _, octave, _, rfl, hl, isAccidental_takeAccidental cs, ho,
    isCents_takeCents tail⟩

/-- A pitch is cut off whole in front of a calm text. -/
theorem takePitch_eq {letter : Char} {cs rest : List Char} (h : IsPitch (letter :: cs))
    (hr : Calm rest) : takePitch letter (cs ++ rest) = .ok (letter :: cs, rest) := by
  rcases h with ⟨_, accidental, octave, cents, hcs, -, ha, ho, hc⟩
  rcases List.cons.inj hcs with ⟨rfl, rfl⟩
  have hcut : takeAccidental (accidental ++ octave :: (cents ++ rest)) =
      (accidental, octave :: (cents ++ rest)) := takeAccidental_eq ha ho
  rw [List.append_assoc, List.cons_append]
  refine takePitch_eq_ok_iff.mpr ⟨octave, cents ++ rest, ?_, ho, ?_, ?_⟩
  · rw [hcut]
  · rw [hcut, takeCents_eq hc hr]
    rfl
  · rw [takeCents_eq hc hr]

theorem isLetter_bounds {c : Char} (h : isLetter c = true) : 65 ≤ c.toNat ∧ c.toNat ≤ 71 := by
  simpa [isLetter, Char.le_def, UInt32.le_iff_toNat_le] using h

theorem isBlank_of_isLetter {c : Char} (h : isLetter c = true) : Text.isBlank c = false := by
  have := isLetter_bounds h
  simp only [Text.isBlank, Bool.or_eq_false_iff, Bool.and_eq_false_iff, decide_eq_false_iff_not,
    beq_eq_false_iff_ne]
  omega

theorem isDigit_of_isBlank {c : Char} (h : Text.isBlank c = true) : c.isDigit = false := by
  cases hc : c.isDigit with
  | false => rfl
  | true =>
    have hd : 48 ≤ c.toNat ∧ c.toNat ≤ 57 := by
      simpa [Char.isDigit, UInt32.le_iff_toNat_le] using hc
    simp only [Text.isBlank, Bool.or_eq_true, Bool.and_eq_true, decide_eq_true_eq,
      beq_iff_eq] at h
    omega

theorem ne_of_isBlank {c d : Char} (h : Text.isBlank c = true)
    (hd : Text.isBlank d = false) : c ≠ d := by
  rintro rfl
  rw [h] at hd
  cases hd

theorem calm_of_isBlank {c : Char} {cs : List Char} (h : Text.isBlank c = true) : Calm (c :: cs) :=
  ⟨ne_of_isBlank h (by decide), ne_of_isBlank h (by decide), isDigit_of_isBlank h⟩

theorem Blank.calm_append {gap cs : List Char} (h : Blank gap) (hcs : Calm cs) :
    Calm (gap ++ cs) := by
  cases gap with
  | nil => exact hcs
  | cons c gap => exact calm_of_isBlank (h c (by simp))

theorem Blank.calm {cs : List Char} (h : Blank cs) : Calm cs := by
  have hcalm : Calm (cs ++ []) := h.calm_append trivial
  rwa [List.append_nil] at hcalm

theorem IsPitch.eq_cons {cs : List Char} (h : IsPitch cs) :
    ∃ letter more, cs = letter :: more ∧ isLetter letter = true := by
  rcases h with ⟨letter, _, _, _, rfl, hl, _⟩
  exact ⟨letter, _, rfl, hl⟩

theorem calm_of_isLetter {c : Char} (h : isLetter c = true) (cs : List Char) :
    Calm (c :: cs) := by
  have hb := isLetter_bounds h
  refine ⟨?_, ?_, ?_⟩
  · rintro rfl
    simp at hb
  · rintro rfl
    simp at hb
  · simp only [Char.isDigit, Bool.and_eq_false_iff, decide_eq_false_iff_not, UInt32.le_iff_toNat_le]
    right
    change ¬ c.toNat ≤ 57
    omega

theorem IsPitch.calm_append {p : List Char} (h : IsPitch p) (cs : List Char) :
    Calm (p ++ cs) := by
  rcases h.eq_cons with ⟨letter, more, rfl, hl⟩
  exact calm_of_isLetter hl _

/-- Behind each pitch of a chord comes a blank, a letter or the closing bracket. -/
theorem chordText_calm {pitches : List (String × List Char)}
    (h : ∀ p ∈ pitches, IsPitch p.1.toList ∧ Blank p.2) (cs : List Char) :
    Calm (chordText pitches ++ ']' :: cs) := by
  cases pitches with
  | nil => exact ⟨by decide, by decide, by decide⟩
  | cons p pitches =>
    rw [chordText, List.flatMap_cons, List.append_assoc, List.append_assoc]
    exact (h p (by simp)).1.calm_append _

/-- The pitches of a chord are cut off a spelling of them. -/
theorem chordPitches_sound {start col : Nat} {cs : List Char} {names : List String} {t : Tail}
    (h : chordPitches start col cs = .ok (names, t)) :
    ∃ gap pitches, Blank gap ∧ (∀ p ∈ pitches, IsPitch p.1.toList ∧ Blank p.2) ∧
      names = pitches.map Prod.fst ∧
      Tail.Past ⟨col, cs⟩ (gap ++ (chordText pitches ++ [']'])) t := by
  fun_induction chordPitches start col cs generalizing names t with
  | case1 => cases h
  | case2 col cs =>
    rcases Prod.mk.inj (Except.ok.inj h) with ⟨rfl, rfl⟩
    exact ⟨[], [], by simp [Blank], by simp, rfl, Tail.past_cons.mpr (Tail.past_nil _)⟩
  | case3 col c cs _ hc ih =>
    -- a blank belongs to the gap in front of the pitches that follow
    rcases ih h with ⟨gap, pitches, hgap, hp, rfl, hpast⟩
    refine ⟨c :: gap, pitches, ?_, hp, rfl, Tail.past_cons.mpr hpast⟩
    simpa [Blank, hc] using hgap
  | case4 => cases h
  | case5 => cases h
  | case6 col c cs _ _ hl text rest ht ps after hps ih =>
    rcases Prod.mk.inj (Except.ok.inj h) with ⟨rfl, rfl⟩
    rcases ih hps with ⟨gap, pitches, hgap, hp, rfl, hpast⟩
    have htext : Tail.Past ⟨col, c :: cs⟩ text ⟨col + text.length, rest⟩ :=
      ⟨(takePitch_append ht).symm, rfl⟩
    refine ⟨[], (String.ofList text, gap) :: pitches, by simp [Blank], ?_, rfl, ?_⟩
    · intro p hmem
      rcases List.mem_cons.mp hmem with rfl | hmem
      · rw [String.toList_ofList]
        exact ⟨isPitch_of_takePitch hl ht, hgap⟩
      · exact hp p hmem
    · simpa [chordText] using htext.trans hpast
  | case7 => cases h

theorem chordPitches_gap {start col : Nat} {gap cs : List Char} (h : Blank gap) :
    chordPitches start col (gap ++ cs) = chordPitches start (col + gap.length) cs := by
  induction gap generalizing col with
  | nil => rfl
  | cons c gap ih =>
    have hc : Text.isBlank c = true := h c (by simp)
    rw [List.cons_append, chordPitches, if_neg (ne_of_isBlank hc (by decide)), if_pos hc,
      ih fun d hd => h d (by simp [hd]), List.length_cons, Nat.add_assoc, Nat.add_comm 1]

theorem chordPitches_eq {start col : Nat} {pitches : List (String × List Char)} {cs : List Char}
    (h : ∀ p ∈ pitches, IsPitch p.1.toList ∧ Blank p.2) :
    chordPitches start col (chordText pitches ++ ']' :: cs) =
      .ok (pitches.map Prod.fst, ⟨col + (chordText pitches).length + 1, cs⟩) := by
  induction pitches generalizing col with
  | nil => rw [chordText, List.flatMap_nil, List.nil_append, chordPitches, if_pos rfl]; rfl
  | cons p pitches ih =>
    rcases h p (by simp) with ⟨hp, hgap⟩
    have hrest := fun q hq => h q (List.mem_cons_of_mem p hq)
    rcases hp.eq_cons with ⟨letter, more, hletter, hl⟩
    have htake := takePitch_eq (hletter ▸ hp) (hgap.calm_append (chordText_calm hrest cs))
    have htext : chordText (p :: pitches) ++ ']' :: cs =
        letter :: (more ++ (p.2 ++ (chordText pitches ++ ']' :: cs))) := by
      simp [chordText, hletter]
    rw [htext, chordPitches, if_neg (by rintro rfl; cases hl), if_neg (by simp [isBlank_of_isLetter hl]),
      if_pos hl]
    split
    · rename_i text ht
      rw [ht] at htake
      cases htake
    · rename_i text rest ht
      rcases Prod.mk.inj (Except.ok.inj (ht.symm.trans htake)) with ⟨rfl, rfl⟩
      rw [chordPitches_gap hgap, ih hrest, ← hletter]
      simp [chordText, Nat.add_assoc]

end Polyphony.Notation
