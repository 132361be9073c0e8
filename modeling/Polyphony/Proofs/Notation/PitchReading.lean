import Polyphony.Proofs.Notation.ScanGrammar
import Polyphony.Notation.Reading

/-! # The frequencies of scanned pitches

A pitch is looked at twice: it is cut out of a composition, and later its text is read from the
beginning. Whatever is cut out has a frequency.
-/
namespace Polyphony.Notation

theorem Letter.exists_ofChar? {c : Char} (h : isLetter c = true) :
    ∃ letter, Letter.ofChar? c = some letter := by
  obtain ⟨hlow, hhigh⟩ := isLetter_bounds h
  have hc : c = Char.ofNat c.toNat := c.ofNat_toNat.symm
  generalize c.toNat = n at hc hlow hhigh
  have hn : n = 65 ∨ n = 66 ∨ n = 67 ∨ n = 68 ∨ n = 69 ∨ n = 70 ∨ n = 71 := by omega
  subst hc
  rcases hn with rfl | rfl | rfl | rfl | rfl | rfl | rfl <;> exact ⟨_, rfl⟩

theorem Letter.isLetter_of_ofChar? {c : Char} {letter : Letter}
    (h : Letter.ofChar? c = some letter) : isLetter c = true := by
  unfold Letter.ofChar? at h
  split at h
  all_goals first | rfl | cases h

theorem Accidental.exists_split {accidental cs : List Char} {octave : Char}
    (h : IsAccidental accidental) (ho : octave.isDigit = true) :
    ∃ a, Accidental.split (accidental ++ octave :: cs) = (a, octave :: cs) := by
  have hb : octave ≠ 'b' := by
    rintro rfl
    cases ho
  rcases h with rfl | rfl | rfl | rfl | rfl
  · refine ⟨.natural, ?_⟩
    rw [List.nil_append]
    unfold Accidental.split
    split <;> simp_all
  · exact ⟨.sharp, rfl⟩
  · exact ⟨.doubleSharp, rfl⟩
  · exact ⟨.flat, by simp [Accidental.split, hb]⟩
  · exact ⟨.doubleFlat, rfl⟩

theorem Accidental.isAccidental_of_split {cs rest : List Char} {a : Accidental}
    (h : Accidental.split cs = (a, rest)) :
    ∃ accidental, IsAccidental accidental ∧ cs = accidental ++ rest := by
  unfold Accidental.split at h
  split at h <;> obtain ⟨-, rfl⟩ := Prod.mk.inj h
  · exact ⟨['b', 'b'], by simp [IsAccidental], rfl⟩
  · exact ⟨['b'], by simp [IsAccidental], rfl⟩
  · exact ⟨['#'], by simp [IsAccidental], rfl⟩
  · exact ⟨['x'], by simp [IsAccidental], rfl⟩
  · exact ⟨[], .inl rfl, rfl⟩

theorem exists_cents? {cents : List Char} (h : IsCents cents) : ∃ n, cents? cents = some n := by
  rcases h with rfl | ⟨sign, digits, rfl, hsign, ⟨hne, hdigits⟩, hlength⟩
  · exact ⟨0, rfl⟩
  · have hread : Number.digits? digits = some (Number.ofDigits digits) :=
      if_pos ⟨hne, List.all_eq_true.mpr hdigits⟩
    rcases hsign with rfl | rfl
    · exact ⟨_, by rw [cents?, if_pos hlength, hread]; rfl⟩
    · exact ⟨_, by rw [cents?, if_pos hlength, hread]; rfl⟩

theorem digits_of_digits? {cs : List Char} {n : Nat} (h : Number.digits? cs = some n) :
    Digits cs := by
  unfold Number.digits? at h
  split at h
  · rename_i hdigits
    exact ⟨hdigits.1, List.all_eq_true.mp hdigits.2⟩
  · cases h

theorem isCents_of_cents? {cents : List Char} {n : Int} (h : cents? cents = some n) :
    IsCents cents := by
  unfold cents? at h
  split at h
  · exact .inl rfl
  · rename_i sign digits
    split at h
    · rename_i hlength
      split at h
      · obtain ⟨_, hread, -⟩ := Option.map_eq_some_iff.mp h
        exact .inr ⟨'+', digits, rfl, .inl rfl, digits_of_digits? hread, hlength⟩
      · obtain ⟨_, hread, -⟩ := Option.map_eq_some_iff.mp h
        exact .inr ⟨'-', digits, rfl, .inr rfl, digits_of_digits? hread, hlength⟩
      · cases h
    · cases h

/-- Every text of the grammar names a pitch. -/
theorem Pitch.exists_ofChars? {cs : List Char} (h : IsPitch cs) :
    ∃ p, Pitch.ofChars? cs = some p := by
  obtain ⟨c, accidental, octave, cents, rfl, hletter, haccidental, hoctave, hcents⟩ := h
  obtain ⟨letter, hletter⟩ := Letter.exists_ofChar? hletter
  obtain ⟨a, haccidental⟩ := @Accidental.exists_split _ cents _ haccidental hoctave
  obtain ⟨n, hcents⟩ := exists_cents? hcents
  refine ⟨⟨letter, a, Number.ofDigits [octave], n⟩, ?_⟩
  simp [ofChars?, hletter, haccidental, hoctave, hcents]

/-- Only texts of the grammar name a pitch. -/
theorem Pitch.isPitch_of_ofChars? {cs : List Char} {p : Pitch}
    (h : Pitch.ofChars? cs = some p) : IsPitch cs := by
  cases cs with
  | nil => cases h
  | cons c cs =>
    rw [ofChars?] at h
    obtain ⟨letter, hletter, h⟩ := Option.bind_eq_some_iff.mp h
    rcases hsplit : Accidental.split cs with ⟨a, rest⟩
    obtain ⟨accidental, haccidental, rfl⟩ := Accidental.isAccidental_of_split hsplit
    rw [hsplit] at h
    cases rest with
    | nil => cases h
    | cons octave cents =>
      dsimp only at h
      split at h
      · rename_i hoctave
        obtain ⟨n, hcents, -⟩ := Option.bind_eq_some_iff.mp h
        exact ⟨c, accidental, octave, cents, rfl, Letter.isLetter_of_ofChar? hletter, haccidental,
          hoctave, isCents_of_cents? hcents⟩
      · cases h

/-- A whole text is read as a pitch exactly if it is cut out as one. -/
theorem exists_ofText?_iff (text : String) :
    (∃ p, Pitch.ofText? text = some p) ↔ IsPitch text.toList :=
  ⟨fun ⟨_, hp⟩ => Pitch.isPitch_of_ofChars? hp, Pitch.exists_ofChars?⟩

theorem exists_frequency? {text : String} (h : IsPitch text.toList) :
    ∃ freq, frequency? text = .ok freq := by
  obtain ⟨p, hp⟩ := Pitch.exists_ofChars? h
  unfold frequency?
  split
  · exact ⟨0, rfl⟩
  · exact ⟨p.frequency, by rw [Pitch.ofText?, hp]⟩

def Token.texts (token : Token) : List String := token.lexeme.pitches?.getD []

theorem Spells.isPitch {token : Token} {u : List Char} (h : Spells token.lexeme u) :
    ∀ text ∈ token.texts, IsPitch text.toList := by
  rcases token with ⟨lexeme, col⟩
  cases h with
  | note hpitch => simpa [Token.texts, Lexeme.pitches?] using hpitch
  | chord _ _ hpitches =>
    intro text htext
    obtain ⟨p, hp, rfl⟩ := List.mem_map.mp htext
    exact (hpitches p hp).1
  | rest | whole | fraction | command => exact nofun

theorem Row.isPitch {attached : Bool} {col : Nat} {pieces : List Piece}
    (h : Row attached col pieces) :
    ∀ p ∈ pieces, ∀ text ∈ p.token.texts, IsPitch text.toList := by
  induction h with
  | nil => exact nofun
  | cons hstands _ ih => exact List.forall_mem_cons.mpr ⟨hstands.spells.isPitch, ih⟩

/-- A pitch alone is cut out whole. -/
theorem scan_note_iff (text : String) :
    scan text = .ok [⟨.note text, 1⟩] ↔ IsPitch text.toList := by
  rw [scan_eq_ok_iff]
  constructor
  · rintro ⟨pieces, tail, -, hrow, -, htokens⟩
    obtain ⟨p, rest, rfl, htoken, -⟩ := List.map_eq_cons_iff.mp htokens
    exact hrow.isPitch p (by simp) text (by simp [htoken, Token.texts, Lexeme.pitches?])
  · intro h
    refine ⟨[⟨[], text.toList, ⟨.note text, 1⟩⟩], [], by simp, ?_, blank_nil, rfl⟩
    exact .cons ⟨blank_nil, .note h, rfl, nofun⟩ .nil

theorem scan_isPitch {source : String} {tokens : List Token} (h : scan source = .ok tokens) :
    ∀ token ∈ tokens, ∀ text ∈ token.texts, IsPitch text.toList := by
  obtain ⟨pieces, tail, -, hrow, -, rfl⟩ := scan_eq_ok_iff.mp h
  intro token htoken
  obtain ⟨p, hp, rfl⟩ := List.mem_map.mp htoken
  exact hrow.isPitch p hp

/-- Every pitch text of a scanned composition has a frequency. -/
theorem scan_frequency? {source : String} {tokens : List Token} (h : scan source = .ok tokens) :
    ∀ token ∈ tokens, ∀ text ∈ token.texts, ∃ freq, frequency? text = .ok freq :=
  fun token htoken text htext => exists_frequency? (scan_isPitch h token htoken text htext)

end Polyphony.Notation
