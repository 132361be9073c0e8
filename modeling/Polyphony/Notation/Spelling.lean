import Polyphony.Notation.Token

/-! # Spellings at the front of a text

A pitch is a letter, an accidental, an octave digit and cents. Each part is cut off
the front of the text as far as it goes. Nothing is lost on the way, and a pitch
takes at least one character.
-/
namespace Polyphony.Notation

def isLetter (c : Char) : Bool := 'A' ≤ c && c ≤ 'G'

/-- An accidental at the front of a text. A second flat joins the first. -/
def takeAccidental : List Char → List Char × List Char
  | '#' :: cs => (['#'], cs)
  | 'x' :: cs => (['x'], cs)
  | 'b' :: 'b' :: cs => (['b', 'b'], cs)
  | 'b' :: cs => (['b'], cs)
  | cs => ([], cs)

/-- Cents at the front of a text: a sign with one or two digits. A sign without a
digit is left alone. -/
def takeCents : List Char → List Char × List Char
  | sign :: d :: cs =>
    if (sign = '+' ∨ sign = '-') ∧ d.isDigit then
      match cs with
      | e :: more => if e.isDigit then ([sign, d, e], more) else ([sign, d], e :: more)
      | [] => ([sign, d], [])
    else ([], sign :: d :: cs)
  | cs => ([], cs)

/-- The text of a pitch whose letter has been read, and what follows it. Without an
octave digit there is only the text up to where the digit is missing. -/
def takePitch (letter : Char) (cs : List Char) : Except (List Char) (List Char × List Char) :=
  let (accidental, cs) := takeAccidental cs
  match cs with
  | d :: cs =>
    if d.isDigit then
      let (cents, cs) := takeCents cs
      .ok (letter :: accidental ++ d :: cents, cs)
    else .error (letter :: accidental)
  | [] => .error (letter :: accidental)

theorem takeAccidental_append (cs : List Char) :
    (takeAccidental cs).1 ++ (takeAccidental cs).2 = cs := by
  unfold takeAccidental
  split <;> rfl

theorem takeCents_append (cs : List Char) : (takeCents cs).1 ++ (takeCents cs).2 = cs := by
  unfold takeCents
  split
  · split
    · split
      · split <;> rfl
      · rfl
    · rfl
  · rfl

/-- A pitch with its parts: the accidental, the octave digit and the cents. -/
theorem takePitch_eq_ok_iff {letter : Char} {cs text rest : List Char} :
    takePitch letter cs = .ok (text, rest) ↔
      ∃ d tail, (takeAccidental cs).2 = d :: tail ∧ d.isDigit = true ∧
        text = letter :: (takeAccidental cs).1 ++ d :: (takeCents tail).1 ∧
        rest = (takeCents tail).2 := by
  unfold takePitch
  rcases takeAccidental cs with ⟨a, r⟩
  cases r with
  | nil => simp
  | cons d tail =>
    by_cases hd : d.isDigit = true
    · simp only [hd, ite_true, Except.ok.injEq, Prod.mk.injEq, List.cons.injEq]
      constructor
      · rintro ⟨rfl, rfl⟩
        exact ⟨d, tail, ⟨rfl, rfl⟩, hd, rfl, rfl⟩
      · rintro ⟨_, _, ⟨rfl, rfl⟩, _, rfl, rfl⟩
        exact ⟨rfl, rfl⟩
    · simp only [hd]
      constructor
      · intro h
        cases h
      · rintro ⟨_, _, h, hd', _⟩
        obtain ⟨rfl, rfl⟩ := List.cons.inj h
        exact absurd hd' hd

theorem takePitch_append {letter : Char} {cs text rest : List Char}
    (h : takePitch letter cs = .ok (text, rest)) : text ++ rest = letter :: cs := by
  obtain ⟨d, tail, hs, _, rfl, rfl⟩ := takePitch_eq_ok_iff.mp h
  have ha := takeAccidental_append cs
  rw [hs] at ha
  rw [List.append_assoc, List.cons_append, List.cons_append, takeCents_append, ha]

theorem takePitch_rest_le {letter : Char} {cs text rest : List Char}
    (h : takePitch letter cs = .ok (text, rest)) : rest.length ≤ cs.length := by
  have hl := congrArg List.length (takePitch_append h)
  obtain ⟨d, tail, _, _, rfl, _⟩ := takePitch_eq_ok_iff.mp h
  simp only [List.length_append, List.length_cons] at hl
  omega

end Polyphony.Notation
