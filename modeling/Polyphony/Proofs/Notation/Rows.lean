import Polyphony.Proofs.Notation.Grammar

/-! # Rows of pieces

A decomposition says of each piece how it fits behind those before it. A row says the same
from left to right: it carries along the column, and whether a duration may come next.
-/
namespace Polyphony.Notation

/-- A piece that can stand at a column. It may be a duration if a unit that takes one ends
right before the column. -/
structure Piece.Stands (attached : Bool) (col : Nat) (p : Piece) : Prop where
  gap : Blank p.gap
  spells : Spells p.token.lexeme p.spelling
  col : p.token.col = col + p.gap.length
  duration : p.token.lexeme.isDuration = true → p.gap = [] ∧ attached = true

inductive Row : Bool → Nat → List Piece → Prop
  | nil {attached : Bool} {col : Nat} : Row attached col []
  | cons {attached : Bool} {col : Nat} {p : Piece} {pieces : List Piece} :
      p.Stands attached col →
      Row p.token.lexeme.takesDuration (p.token.col + p.spelling.length) pieces →
      Row attached col (p :: pieces)

@[simp] theorem spelled_nil : spelled [] = [] := rfl

@[simp] theorem spelled_cons (p : Piece) (pieces : List Piece) :
    spelled (p :: pieces) = p.gap ++ (p.spelling ++ spelled pieces) := by
  simp [spelled]

@[simp] theorem spelled_append (before after : List Piece) :
    spelled (before ++ after) = spelled before ++ spelled after := List.flatMap_append

def attachedBehind (before : List Piece) : Bool :=
  match before.getLast? with
  | none => false
  | some q => q.token.lexeme.takesDuration

theorem attachedBehind_iff (before : List Piece) : attachedBehind before = true ↔
    ∃ q, before.getLast? = some q ∧ q.token.lexeme.takesDuration = true := by
  unfold attachedBehind
  cases before.getLast? with
  | none => simp
  | some q => simp

theorem stands_iff_fits {before : List Piece} {p : Piece} :
    p.Stands (attachedBehind before) (1 + (spelled before).length) ↔ p.Fits before := by
  have hcol : 1 + (spelled before).length + p.gap.length =
      1 + (spelled before ++ p.gap).length := by
    rw [List.length_append, Nat.add_assoc]
  constructor
  · intro h
    refine ⟨h.gap, h.spells, h.col.trans hcol, fun hp => ?_⟩
    rw [← attachedBehind_iff]
    exact h.duration hp
  · intro h
    refine ⟨h.gap, h.spells, h.col.trans hcol.symm, fun hp => ?_⟩
    rw [attachedBehind_iff]
    exact h.duration hp

/-- A row behind other pieces is one whose pieces all fit. -/
theorem row_iff_fits (before pieces : List Piece) :
    Row (attachedBehind before) (1 + (spelled before).length) pieces ↔
      ∀ mid p after, pieces = mid ++ p :: after → p.Fits (before ++ mid) := by
  induction pieces generalizing before with
  | nil => exact ⟨fun _ mid p after h => by simp at h, fun _ => .nil⟩
  | cons p pieces ih =>
    have hlast : attachedBehind (before ++ [p]) = p.token.lexeme.takesDuration := by
      simp [attachedBehind]
    have hnext (h : p.Fits before) :
        1 + (spelled (before ++ [p])).length = p.token.col + p.spelling.length := by
      simp [h.col, Nat.add_assoc]
    have ih := ih (before ++ [p])
    rw [hlast] at ih
    constructor
    · rintro (_ | ⟨hstands, hrow⟩) mid q after hsplit
      have hfits := stands_iff_fits.mp hstands
      rw [hnext hfits] at ih
      cases mid with
      | nil =>
        rcases List.cons.inj hsplit with ⟨rfl, rfl⟩
        rw [List.append_nil]
        exact hfits
      | cons r mid =>
        rcases List.cons.inj hsplit with ⟨rfl, rfl⟩
        rw [List.append_cons]
        exact ih.mp hrow mid q after rfl
    · intro h
      have hfits : p.Fits before := by
        have := h [] p pieces rfl
        rwa [List.append_nil] at this
      rw [hnext hfits] at ih
      refine .cons (stands_iff_fits.mpr hfits) (ih.mpr fun mid q after hsplit => ?_)
      rw [← List.append_cons]
      exact h (p :: mid) q after (congrArg (p :: ·) hsplit)

end Polyphony.Notation
