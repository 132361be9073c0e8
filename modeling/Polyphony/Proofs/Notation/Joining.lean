import Polyphony.Proofs.Notation.Meaning
import Polyphony.Proofs.Notation.ScanGrammar

/-! # Compositions one after another

Two compositions that are accepted alone are accepted one after the other, and neither
changes what the other means. At the seam no cents of the first can claim a character of
the second, and the second cannot begin with a duration.
-/
namespace Polyphony.Notation

/-- The answer of a reading that has a cache of its own. -/
def read (source : String) : Except Error (List Event) := outcome (events source .empty)

theorem read_eq (source : String) : read source = scan source >>= meaning :=
  (says_events source .empty PitchCache.sound_empty).1

/-- A cache that is shared answers like one of its own. -/
theorem outcome_events {desk : Desk} (h : desk.cache.Sound) (source : String) :
    outcome (events source desk) = read source := by
  rw [(says_events source desk h).1, read_eq]

theorem read_eq_ok_iff {source : String} {es : List Event} : read source = .ok es ↔
    ∃ tokens, scan source = .ok tokens ∧ meaning tokens = .ok es := by
  rw [read_eq, bind_eq_ok]

def Piece.later (n : Nat) (p : Piece) : Piece := ⟨p.gap, p.spelling, p.token.later n⟩

theorem spelled_later (n : Nat) (pieces : List Piece) :
    spelled (pieces.map (Piece.later n)) = spelled pieces := by
  simp [spelled, List.flatMap_map, Piece.later]

/-- A row that begins with no duration can stand behind anything, at any column. -/
theorem Row.later {attached : Bool} {col : Nat} {pieces : List Piece} (n : Nat)
    (h : Row attached col pieces) (attached' : Bool) (hattached : attached = true → attached' = true) :
    Row attached' (n + col) (pieces.map (Piece.later n)) := by
  induction h generalizing attached' with
  | nil => exact .nil
  | @cons attached col p pieces hstands hrow ih =>
    refine .cons ⟨hstands.gap, hstands.spells, ?_, fun hp => ?_⟩ ?_
    · exact (congrArg (n + ·) hstands.col).trans (Nat.add_assoc ..).symm
    · exact ⟨(hstands.duration hp).1, hattached (hstands.duration hp).2⟩
    · have hnext := ih p.token.lexeme.takesDuration id
      rw [← Nat.add_assoc] at hnext
      exact hnext

/-- A row that begins unattached does not begin with a duration. -/
theorem Row.head_isDuration {col : Nat} {pieces : List Piece} (h : Row false col pieces) :
    ∀ token ∈ (pieces.map Piece.token).head?, token.lexeme.isDuration = false := by
  cases h with
  | nil => simp
  | @cons _ _ p pieces hstands hrow =>
    intro token htoken
    obtain rfl : p.token = token := Option.some.inj htoken
    by_cases hp : p.token.lexeme.isDuration = true
    · cases (hstands.duration hp).2
    · simpa using hp

theorem scan_head {source : String} {tokens : List Token} (h : scan source = .ok tokens) :
    ∀ token ∈ tokens.head?, token.lexeme.isDuration = false := by
  rcases scan_eq_ok_iff.mp h with ⟨pieces, tail, -, hrow, -, rfl⟩
  exact hrow.head_isDuration

/-- The tokens of two compositions, those of the second further on. -/
theorem scan_append {a b : String} {ta tb : List Token} (ha : scan a = .ok ta)
    (hb : scan b = .ok tb) :
    scan (a ++ b) = .ok (ta ++ tb.map (Token.later a.toList.length)) := by
  rcases scan_eq_ok_iff.mp ha with ⟨pieces, tail, hchars, hrow, htail, rfl⟩
  rcases scan_eq_ok_iff.mp hb with ⟨pieces', tail', hchars', hrow', htail', rfl⟩
  have hcalm : Calm b.toList := by
    rw [hchars']
    exact hrow'.calm htail'.calm
  -- whatever unit the first text ends with, the second makes no use of its attachment
  rcases hrow.scanFrom_append htail hcalm with ⟨attached, hcut⟩
  rw [← hchars] at hcut
  have hlater := hrow'.later a.toList.length attached nofun
  have hend := hlater.scanFrom_end htail'
  rw [spelled_later, ← hchars'] at hend
  rw [scan, String.toList_append, hcut, Nat.add_comm 1, hend]
  simp [Piece.later]

/-- The events of two compositions, one after the other. -/
theorem read_append {a b : String} {x y : List Event} (ha : read a = .ok x)
    (hb : read b = .ok y) : read (a ++ b) = .ok (x ++ y) := by
  rcases read_eq_ok_iff.mp ha with ⟨ta, hta, hx⟩
  rcases read_eq_ok_iff.mp hb with ⟨tb, htb, hy⟩
  have hhead : ∀ token ∈ (tb.map (Token.later a.toList.length)).head?,
      token.lexeme.isDuration = false := by
    intro token htoken
    rw [List.head?_map, Option.mem_def, Option.map_eq_some_iff] at htoken
    rcases htoken with ⟨t, ht, rfl⟩
    exact scan_head htb t ht
  rw [read_eq, scan_append hta htb]
  change meaning _ = _
  rw [meaning_append hhead, meaning_later, hx, hy]
  rfl

theorem read_empty : read "" = .ok [] := by
  rw [read_eq, scan, String.toList_empty, scanFrom_nil]
  rfl

end Polyphony.Notation
