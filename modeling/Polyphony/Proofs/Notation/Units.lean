import Polyphony.Proofs.Notation.Pitches

/-! # Units at the front of a text

A unit is cut off the front of a text exactly when the text begins with a spelling of it. -/
namespace Polyphony.Notation

section

variable {start n : Nat} {s t : Tail} {x : Lexeme} {cs : List Char}

/-- A number is cut off its digits, all of them. -/
theorem takeNumber_sound (h : takeNumber start s = .ok (n, t)) :
    ∃ digits, IsNumber digits n ∧ s.Past digits t := by
  unfold takeNumber at h
  dsimp only at h
  split at h
  · cases h
  · rename_i hne
    split at h
    · rename_i hlt
      rcases Prod.mk.inj (Except.ok.inj h) with ⟨rfl, rfl⟩
      exact ⟨_, ⟨⟨hne, fun _ => mem_takeWhile⟩, rfl, hlt⟩, s.run_past Char.isDigit⟩
    · cases h

theorem takeNumber_eq {digits : List Char} {c : Char} (h : IsNumber digits n)
    (hc : c.isDigit = false) (ht : t.chars = c :: cs) (hpast : s.Past digits t) :
    takeNumber start s = .ok (n, t) := by
  rcases h with ⟨⟨hne, hdigits⟩, rfl, hlt⟩
  rw [takeNumber, Tail.run_eq hdigits hc ht hpast]
  simp only [hne, hlt, if_true, if_false]

/-- Without a slash nothing is cut off for the denominator. -/
theorem takeDenominator_sound (h : takeDenominator start s = .ok (n, t)) :
    (n = 1 ∧ t = s) ∨ ∃ digits, IsNumber digits n ∧ s.Past ('/' :: digits) t := by
  rcases s with ⟨col, chars⟩
  unfold takeDenominator at h
  split at h
  · rename_i cs hs
    rcases takeNumber_sound h with ⟨digits, hn, hpast⟩
    obtain rfl : chars = '/' :: cs := hs
    exact .inr ⟨digits, hn, Tail.past_cons.mpr hpast⟩
  · rcases Prod.mk.inj (Except.ok.inj h) with ⟨rfl, rfl⟩
    exact .inl ⟨rfl, rfl⟩

theorem takeDuration_sound (h : takeDuration start s = .ok (x, t)) :
    ∃ u, Spells x ('{' :: u) ∧ s.Past u t := by
  unfold takeDuration at h
  split at h
  · cases h
  rename_i num s₁ hnum
  split at h
  · cases h
  rename_i den s₂ hden
  split at h
  · rename_i cs hs
    rcases Prod.mk.inj (Except.ok.inj h) with ⟨rfl, rfl⟩
    rcases takeNumber_sound hnum with ⟨digits, hn, hpast⟩
    have hclose : s₂.Past ['}'] ⟨s₂.col + 1, cs⟩ := ⟨hs, rfl⟩
    rcases takeDenominator_sound hden with ⟨rfl, rfl⟩ | ⟨digits', hd, hpast'⟩
    · exact ⟨_, .whole hn, hpast.trans hclose⟩
    · exact ⟨_, .fraction hn hd, hpast.trans (hpast'.trans hclose)⟩
  · cases h

theorem takeDuration_whole {digits : List Char} (h : IsNumber digits n)
    (hpast : s.Past (digits ++ ['}']) t) :
    takeDuration start s = .ok (.duration n 1, t) := by
  rcases Tail.past_append_cons hpast with ⟨_, _, hdigits, hclose⟩
  obtain rfl := (Tail.past_nil _).det hclose
  rw [takeDuration, takeNumber_eq h (by decide) rfl hdigits]
  rfl

theorem takeDuration_fraction {digits digits' : List Char} {num den : Nat}
    (h : IsNumber digits num) (h' : IsNumber digits' den)
    (hpast : s.Past (digits ++ '/' :: (digits' ++ ['}'])) t) :
    takeDuration start s = .ok (.duration num den, t) := by
  rcases Tail.past_append_cons hpast with ⟨_, _, hdigits, hslash⟩
  rcases Tail.past_append_cons hslash with ⟨_, _, hdigits', hclose⟩
  obtain rfl := (Tail.past_nil _).det hclose
  rw [takeDuration, takeNumber_eq h (by decide) rfl hdigits]
  simp only [takeDenominator, takeNumber_eq h' (by decide) rfl hdigits']

theorem spells_command {key value : List Char} (hkey : key ≠ [])
    (hupper : ∀ c ∈ key, c.isUpper = true) (hvalue : value ≠ []) (hclose : ')' ∉ value) :
    Spells (.command (String.ofList key) (String.ofList value))
      ('(' :: (key ++ '=' :: (value ++ [')']))) := by
  have h := @Spells.command (String.ofList key) (String.ofList value)
  simp only [String.toList_ofList] at h
  exact h hkey hupper hvalue hclose

/-- A command is cut off a spelling of it, up to the first closing parenthesis. -/
theorem takeCommand_sound (h : takeCommand start s = .ok (x, t)) :
    ∃ u, Spells x ('(' :: u) ∧ s.Past u t := by
  have hkey := s.run_past Char.isUpper
  unfold takeCommand at h
  dsimp only at h
  split at h
  · cases h
  rename_i hkey_ne
  split at h
  · rename_i cs hs
    have hvalue := Tail.run_past (· ≠ ')') ⟨(s.run Char.isUpper).2.col + 1, cs⟩
    split at h
    · cases h
    · rename_i c cs' hs'
      split at h
      · cases h
      · rename_i hvalue_ne
        rcases Prod.mk.inj (Except.ok.inj h) with ⟨rfl, rfl⟩
        obtain rfl : c = ')' := by simpa using Tail.run_stops hs'
        have hclose : ')' ∉ (Tail.run (· ≠ ')') ⟨(s.run Char.isUpper).2.col + 1, cs⟩).1 := by
          intro hmem
          simpa using mem_takeWhile hmem
        exact ⟨_, spells_command hkey_ne (fun _ => mem_takeWhile) hvalue_ne hclose,
          hkey.trans ((Tail.past_one hs).trans (hvalue.trans (Tail.past_one hs')))⟩
  · cases h

theorem takeCommand_eq {key value : List Char} (hkey : key ≠ [])
    (hupper : ∀ c ∈ key, c.isUpper = true) (hvalue : value ≠ []) (hclose : ')' ∉ value)
    (hpast : s.Past (key ++ '=' :: (value ++ [')'])) t) :
    takeCommand start s = .ok (.command (String.ofList key) (String.ofList value), t) := by
  rcases Tail.past_append_cons hpast with ⟨_, _, hrow, heq⟩
  rcases Tail.past_append_cons heq with ⟨_, _, hrow', hend⟩
  obtain rfl := (Tail.past_nil _).det hend
  have hmem : ∀ c ∈ value, decide (c ≠ ')') = true := by
    intro c hc
    rw [decide_eq_true_eq]
    rintro rfl
    exact hclose hc
  unfold takeCommand
  rw [Tail.run_eq hupper (by decide) rfl hrow]
  simp only [hkey, if_false, Tail.run_eq hmem (by decide) rfl hrow', hvalue]

/-- What is cut off is a spelling, and a duration only where one may stand. -/
theorem takeUnit_sound {attached : Bool} {col : Nat} {c : Char}
    (h : takeUnit attached col c cs = .ok (x, t)) :
    ∃ u, Spells x u ∧ Tail.Past ⟨col, c :: cs⟩ u t ∧ (x.isDuration = true → attached = true) := by
  unfold takeUnit at h
  split at h
  · rename_i hc
    rcases Prod.mk.inj (Except.ok.inj h) with ⟨rfl, rfl⟩
    obtain rfl := hc
    exact ⟨_, .rest, Tail.past_one rfl, nofun⟩
  split at h
  · rename_i hl
    split at h
    · cases h
    rename_i text rest ht
    rcases Prod.mk.inj (Except.ok.inj h) with ⟨rfl, rfl⟩
    have hspells := @Spells.note (String.ofList text)
    rw [String.toList_ofList] at hspells
    exact ⟨text, hspells (isPitch_of_takePitch hl ht), ⟨(takePitch_append ht).symm, rfl⟩,
      nofun⟩
  split at h
  · rename_i hc
    split at h
    · cases h
    · cases h
    rename_i names after hne hchord
    rcases Prod.mk.inj (Except.ok.inj h) with ⟨rfl, rfl⟩
    obtain rfl := hc
    rcases chordPitches_sound hchord with ⟨gap, pitches, hgap, hp, rfl, hpast⟩
    have hpitches : pitches ≠ [] := by
      rintro rfl
      exact hne rfl
    exact ⟨_, .chord hgap hpitches hp, Tail.past_cons.mpr hpast, nofun⟩
  split at h
  · rename_i hc
    obtain rfl := hc
    split at h
    · rename_i hattached
      rcases takeDuration_sound h with ⟨u, hu, hpast⟩
      exact ⟨_, hu, Tail.past_cons.mpr hpast, fun _ => hattached⟩
    · cases h
  split at h
  · rename_i hc
    obtain rfl := hc
    rcases takeCommand_sound h with ⟨u, hu, hpast⟩
    refine ⟨_, hu, Tail.past_cons.mpr hpast, ?_⟩
    intro hx
    cases x with
    | duration => cases hu
    | _ => cases hx
  · cases h

theorem takeUnit_note {attached : Bool} {col : Nat} {c : Char} {pitch : String}
    (hp : IsPitch pitch.toList) (ht : Calm t.chars)
    (hpast : Tail.Past ⟨col, c :: cs⟩ pitch.toList t) :
    takeUnit attached col c cs = .ok (.note pitch, t) := by
  rcases hp.eq_cons with ⟨letter, more, hletter, hl⟩
  have htake := takePitch_eq (hletter ▸ hp) ht
  have hchars := hpast.chars
  rw [hletter] at hchars
  obtain rfl : c = letter := (List.cons.inj hchars).1
  obtain rfl : cs = more ++ t.chars := (List.cons.inj hchars).2
  have hr : c ≠ 'r' := by
    rintro rfl
    cases hl
  unfold takeUnit
  rw [if_neg hr, if_pos hl, htake, ← hletter]
  simp only [String.ofList_toList]
  have hend : (⟨col + pitch.toList.length, t.chars⟩ : Tail) = t :=
    Tail.Past.det ⟨hpast.chars, rfl⟩ hpast
  rw [hend]

theorem takeUnit_chord {attached : Bool} {col : Nat} {c : Char} {gap : List Char}
    {pitches : List (String × List Char)} (hgap : Blank gap) (hne : pitches ≠ [])
    (hp : ∀ p ∈ pitches, IsPitch p.1.toList ∧ Blank p.2)
    (hpast : Tail.Past ⟨col, c :: cs⟩ ('[' :: (gap ++ (chordText pitches ++ [']']))) t) :
    takeUnit attached col c cs = .ok (.chord (pitches.map Prod.fst), t) := by
  obtain rfl : c = '[' := (List.cons.inj hpast.chars).1
  have hcs : cs = gap ++ (chordText pitches ++ ']' :: t.chars) := by
    simpa using hpast.chars
  subst hcs
  have hend : (⟨col + 1 + gap.length + (chordText pitches).length + 1, t.chars⟩ : Tail) = t := by
    refine Tail.Past.det ⟨hpast.chars, ?_⟩ hpast
    simp only [List.length_cons, List.length_append, List.length_nil]
    omega
  unfold takeUnit
  rw [if_neg (by decide), if_neg (by decide), if_pos rfl, chordPitches_gap hgap,
    chordPitches_eq hp, hend]
  rcases List.exists_cons_of_ne_nil hne with ⟨p, pitches, rfl⟩
  rfl

/-- A spelling is cut off whole in front of a calm text. -/
theorem takeUnit_eq {attached : Bool} {col : Nat} {c : Char} {u : List Char} (h : Spells x u)
    (hattached : x.isDuration = true → attached = true) (ht : Calm t.chars)
    (hpast : Tail.Past ⟨col, c :: cs⟩ u t) : takeUnit attached col c cs = .ok (x, t) := by
  cases h with
  | rest =>
    rcases List.cons.inj hpast.chars with ⟨rfl, -⟩
    obtain rfl := (Tail.past_one rfl).det hpast
    rfl
  | note hp => exact takeUnit_note hp ht hpast
  | chord hgap hne hp => exact takeUnit_chord hgap hne hp hpast
  | whole hn =>
    rcases List.cons.inj hpast.chars with ⟨rfl, -⟩
    rw [takeUnit, hattached rfl]
    exact takeDuration_whole hn (Tail.past_cons.mp hpast)
  | fraction hn hd =>
    rcases List.cons.inj hpast.chars with ⟨rfl, -⟩
    rw [takeUnit, hattached rfl]
    exact takeDuration_fraction hn hd (Tail.past_cons.mp hpast)
  | command hkey hupper hvalue hclose =>
    rcases List.cons.inj hpast.chars with ⟨rfl, -⟩
    change takeCommand col ⟨col + 1, cs⟩ = _
    rw [takeCommand_eq hkey hupper hvalue hclose (Tail.past_cons.mp hpast), String.ofList_toList,
      String.ofList_toList]

end
end Polyphony.Notation
