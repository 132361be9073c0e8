import Polyphony.Notation.Spelling
import Polyphony.Number.Numeral

/-! # From a composition to tokens

Blanks may stand between units. A duration belongs to the rest, note or chord right
before it, so the cut remembers whether one has just ended. The first trouble ends
the cut. `scan` is the whole of it.
-/
namespace Polyphony.Notation

/-- What is left of a composition, and the column of its first character. -/
structure Tail where
  col : Nat
  chars : List Char

/-- The longest row of characters of one class at the front. -/
def Tail.run (p : Char → Bool) (s : Tail) : List Char × Tail :=
  let row := s.chars.takeWhile p
  (row, ⟨s.col + row.length, s.chars.dropWhile p⟩)

theorem Tail.run_length_le (p : Char → Bool) (s : Tail) :
    (s.run p).2.chars.length ≤ s.chars.length :=
  (List.dropWhile_suffix p).length_le

/-- The pitches of a chord up to its closing bracket. `start` is the column of the
opening one. -/
def chordPitches (start col : Nat) : List Char → Except Error (List String × Tail)
  | [] => .error ⟨.unclosedChord, start⟩
  | c :: cs =>
    if c = ']' then .ok ([], ⟨col + 1, cs⟩)
    else if Text.isBlank c then chordPitches start (col + 1) cs
    else if isLetter c then
      match _h : takePitch c cs with
      | .error text => .error ⟨.missingOctave (String.ofList text), col⟩
      | .ok (text, rest) =>
        match chordPitches start (col + text.length) rest with
        | .error e => .error e
        | .ok (pitches, after) => .ok (String.ofList text :: pitches, after)
    else .error ⟨.unexpectedInChord c, col⟩
termination_by cs => cs.length
decreasing_by
  · simp
  · have := takePitch_rest_le _h
    simp only [List.length_cons]
    omega

/-- The numbers of a duration are below this bound, the first that 32 bits do not hold. -/
def numberBound : Nat := 4294967296

/-- A number of a duration. Its errors point at the opening brace. -/
def takeNumber (start : Nat) (s : Tail) : Except Error (Nat × Tail) :=
  let (digits, s) := s.run Char.isDigit
  let value := Number.ofDigits digits
  if digits = [] then .error ⟨.missingNumber, start⟩
  else if value < numberBound then .ok (value, s)
  else .error ⟨.durationOutOfRange (String.ofList digits), start⟩

/-- The number behind a slash, and one if there is no slash. -/
def takeDenominator (start : Nat) (s : Tail) : Except Error (Nat × Tail) :=
  match s.chars with
  | '/' :: cs => takeNumber start ⟨s.col + 1, cs⟩
  | _ => .ok (1, s)

/-- A duration behind its opening brace: one number, or two with a slash between. -/
def takeDuration (start : Nat) (s : Tail) : Except Error (Lexeme × Tail) :=
  match takeNumber start s with
  | .error e => .error e
  | .ok (num, s) =>
    match takeDenominator start s with
    | .error e => .error e
    | .ok (den, s) =>
      match s.chars with
      | '}' :: cs => .ok (.duration num den, ⟨s.col + 1, cs⟩)
      | _ => .error ⟨.unclosedDuration, start⟩

/-- A command behind its opening parenthesis: a key in capitals and a value that is
kept as it is. -/
def takeCommand (start : Nat) (s : Tail) : Except Error (Lexeme × Tail) :=
  let (key, s) := s.run Char.isUpper
  if key = [] then .error ⟨.missingKey, start⟩
  else match s.chars with
    | '=' :: cs =>
      let (value, s) := Tail.run (· ≠ ')') ⟨s.col + 1, cs⟩
      match s.chars with
      | [] => .error ⟨.unclosedCommand (String.ofList key), start⟩
      | _ :: cs =>
        if value = [] then .error ⟨.missingValue (String.ofList key), start⟩
        else .ok (.command (String.ofList key) (String.ofList value), ⟨s.col + 1, cs⟩)
    | _ => .error ⟨.missingEquals (String.ofList key), start⟩

/-- One unit, whose first character is `c` at column `col`. A duration is refused
unless it is attached to a unit that takes one. -/
def takeUnit (attached : Bool) (col : Nat) (c : Char) (cs : List Char) :
    Except Error (Lexeme × Tail) :=
  if c = 'r' then .ok (.rest, ⟨col + 1, cs⟩)
  else if isLetter c then
    match takePitch c cs with
    | .error text => .error ⟨.missingOctave (String.ofList text), col⟩
    | .ok (text, rest) => .ok (.note (String.ofList text), ⟨col + text.length, rest⟩)
  else if c = '[' then
    match chordPitches col (col + 1) cs with
    | .error e => .error e
    | .ok ([], _) => .error ⟨.emptyChord, col⟩
    | .ok (pitches, s) => .ok (.chord pitches, s)
  else if c = '{' then
    if attached then takeDuration col ⟨col + 1, cs⟩ else .error ⟨.detachedDuration, col⟩
  else if c = '(' then takeCommand col ⟨col + 1, cs⟩
  else .error ⟨.unexpectedCharacter c, col⟩

theorem chordPitches_length_le {start col : Nat} {cs : List Char} {pitches : List String}
    {s : Tail} (h : chordPitches start col cs = .ok (pitches, s)) :
    s.chars.length ≤ cs.length := by
  fun_induction chordPitches start col cs generalizing pitches s with
  | case1 => cases h
  | case2 =>
    obtain ⟨_, rfl⟩ := Prod.mk.inj (Except.ok.inj h)
    simp
  | case3 _ _ _ _ _ ih => exact Nat.le_succ_of_le (ih h)
  | case4 => cases h
  | case5 => cases h
  | case6 _ _ _ _ _ _ _ _ ht ps after hps ih =>
    have hr := takePitch_rest_le ht
    have := ih hps
    obtain ⟨_, rfl⟩ := Prod.mk.inj (Except.ok.inj h)
    simp only [List.length_cons]
    omega
  | case7 => cases h

theorem takeNumber_length_le {start n : Nat} {s t : Tail} (h : takeNumber start s = .ok (n, t)) :
    t.chars.length ≤ s.chars.length := by
  have hl := s.run_length_le Char.isDigit
  unfold takeNumber at h
  dsimp only at h
  split at h
  · simp at h
  · split at h
    · obtain ⟨_, rfl⟩ := Prod.mk.inj (Except.ok.inj h)
      exact hl
    · simp at h

theorem takeDenominator_length_le {start n : Nat} {s t : Tail}
    (h : takeDenominator start s = .ok (n, t)) : t.chars.length ≤ s.chars.length := by
  unfold takeDenominator at h
  split at h
  · rename_i cs hs
    have := takeNumber_length_le h
    rw [hs]
    exact Nat.le_succ_of_le this
  · obtain ⟨_, rfl⟩ := Prod.mk.inj (Except.ok.inj h)
    exact Nat.le_refl _

theorem takeDuration_length_le {start : Nat} {s t : Tail} {x : Lexeme}
    (h : takeDuration start s = .ok (x, t)) : t.chars.length ≤ s.chars.length := by
  unfold takeDuration at h
  split at h
  · cases h
  · rename_i num s₁ hn
    have h₁ := takeNumber_length_le hn
    split at h
    · cases h
    · rename_i den s₂ hd
      have h₂ := takeDenominator_length_le hd
      split at h
      · rename_i cs hs
        obtain ⟨_, rfl⟩ := Prod.mk.inj (Except.ok.inj h)
        rw [hs] at h₂
        simp only [List.length_cons] at h₂
        dsimp only
        omega
      · cases h

theorem takeCommand_length_le {start : Nat} {s t : Tail} {x : Lexeme}
    (h : takeCommand start s = .ok (x, t)) : t.chars.length ≤ s.chars.length := by
  have hk := s.run_length_le Char.isUpper
  unfold takeCommand at h
  dsimp only at h
  split at h
  · cases h
  · split at h
    · rename_i cs hs
      have hv := Tail.run_length_le (· ≠ ')') ⟨(s.run Char.isUpper).2.col + 1, cs⟩
      rw [hs] at hk
      simp only [List.length_cons] at hk
      split at h
      · cases h
      · rename_i c cs' hs'
        rw [hs'] at hv
        simp only [List.length_cons] at hv
        split at h
        · cases h
        · obtain ⟨_, rfl⟩ := Prod.mk.inj (Except.ok.inj h)
          dsimp only
          omega
    · cases h

/-- A unit never gives back more than what follows its first character. -/
theorem takeUnit_length_le {attached : Bool} {col : Nat} {c : Char} {cs : List Char}
    {x : Lexeme} {s : Tail} (h : takeUnit attached col c cs = .ok (x, s)) :
    s.chars.length ≤ cs.length := by
  unfold takeUnit at h
  split at h
  · obtain ⟨_, rfl⟩ := Prod.mk.inj (Except.ok.inj h)
    exact Nat.le_refl _
  split at h
  · split at h
    · cases h
    · rename_i text rest ht
      obtain ⟨_, rfl⟩ := Prod.mk.inj (Except.ok.inj h)
      exact takePitch_rest_le ht
  split at h
  · split at h
    · cases h
    · cases h
    · rename_i pitches s' _ hp
      obtain ⟨_, rfl⟩ := Prod.mk.inj (Except.ok.inj h)
      exact chordPitches_length_le hp
  split at h
  · split at h
    · exact takeDuration_length_le h
    · cases h
  split at h
  · exact takeCommand_length_le h
  · cases h

/-- The tokens of the rest of a composition behind those that are done. -/
def scanFrom (attached : Bool) (s : Tail) (done : Array Token) : Except Error (List Token) :=
  match _hs : s.chars with
  | [] => .ok done.toList
  | c :: cs =>
    if Text.isBlank c then scanFrom false ⟨s.col + 1, cs⟩ done
    else match _h : takeUnit attached s.col c cs with
      | .error e => .error e
      | .ok (lexeme, after) =>
        scanFrom lexeme.takesDuration after (done.push ⟨lexeme, s.col⟩)
termination_by s.chars.length
decreasing_by
  · simp [_hs]
  · have := takeUnit_length_le _h
    rw [_hs]
    exact Nat.lt_succ_of_le this

def scan (source : String) : Except Error (List Token) := scanFrom false ⟨1, source.toList⟩ #[]

end Polyphony.Notation
