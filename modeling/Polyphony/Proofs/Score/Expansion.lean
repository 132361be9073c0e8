import Polyphony.Proofs.Notation.Joining
import Polyphony.Score.Fragment

/-! # The events of fragments

A composition in fragments plays the events of its texts, each read alone, in the order in
which the texts stand in the expansion.
-/
namespace Polyphony
open Notation

mutual

/-- The texts of a fragment, those of a group that is never played among them. -/
def Fragment.texts : Fragment → List String
  | .text t => [t]
  | .group _ parts => Fragment.textsAll parts

def Fragment.textsAll : List Fragment → List String
  | [] => []
  | part :: parts => part.texts ++ Fragment.textsAll parts

end

mutual

def Fragment.events (f : String → List Event) : Fragment → List Event
  | .text t => f t
  | .group times parts => (List.replicate times (Fragment.eventsAll f parts)).flatten

def Fragment.eventsAll (f : String → List Event) : List Fragment → List Event
  | [] => []
  | part :: parts => part.events f ++ Fragment.eventsAll f parts

end

def Composition.texts : Composition → List String
  | .text t => [t]
  | .fragments parts => Fragment.textsAll parts

def Composition.events (f : String → List Event) : Composition → List Event
  | .text t => f t
  | .fragments parts => Fragment.eventsAll f parts

/-- Copies of a text play its events again and again. -/
theorem read_copies {text : String} {es : List Event} (h : read text = .ok es) (times : Nat) :
    read (copies times text) = .ok (List.replicate times es).flatten := by
  unfold copies
  split
  · rename_i hempty
    rw [hempty, read_empty] at h
    obtain rfl := Except.ok.inj h
    rw [read_empty]
    simp
  · induction times with
    | zero => exact read_empty
    | succ times ih =>
      rw [Nat.repeat, read_append ih h, List.replicate_succ', List.flatten_append]
      simp

section

variable (f : String → List Event)

mutual

theorem Fragment.read_expand (part : Fragment) (h : ∀ t ∈ part.texts, read t = .ok (f t)) :
    read part.expand = .ok (part.events f) := by
  cases part with
  | text t => exact h t (by simp [Fragment.texts])
  | group times parts =>
    rw [Fragment.expand, Fragment.events]
    exact read_copies (Fragment.read_expandAll parts h) times

theorem Fragment.read_expandAll (parts : List Fragment)
    (h : ∀ t ∈ Fragment.textsAll parts, read t = .ok (f t)) :
    read (Fragment.expandAll parts) = .ok (Fragment.eventsAll f parts) := by
  cases parts with
  | nil => exact read_empty
  | cons part parts =>
    rw [Fragment.textsAll] at h
    exact read_append
      (Fragment.read_expand part fun t ht => h t (List.mem_append_left _ ht))
      (Fragment.read_expandAll parts fun t ht => h t (List.mem_append_right _ ht))

end

theorem Composition.read_expand (c : Composition) (h : ∀ t ∈ c.texts, read t = .ok (f t)) :
    read c.expand = .ok (c.events f) := by
  cases c with
  | text t => exact h t (by simp [Composition.texts])
  | fragments parts => exact Fragment.read_expandAll f parts h

/-- A composition whose texts are all accepted alone is accepted, and its events are those
of its texts in the order of the expansion. A cache that it shares with others changes
nothing, and two accepted texts may be joined in the same way. -/
theorem Composition.expand_compositional (c : Composition)
    (h : ∀ t ∈ c.texts, read t = .ok (f t)) :
    read c.expand = .ok (c.events f) ∧
      (∀ desk : Desk, desk.cache.Sound →
        outcome (Notation.events c.expand desk) = .ok (c.events f)) ∧
      ∀ a b x y, read a = .ok x → read b = .ok y → read (a ++ b) = .ok (x ++ y) := by
  have hread := c.read_expand f h
  refine ⟨hread, fun desk hdesk => ?_, fun a b x y ha hb => read_append ha hb⟩
  rw [outcome_events hdesk, hread]

end

/-- A group of rests that is played twice, with a group inside that is never played. -/
theorem Composition.expand_compositional_rests :
    let c : Composition := .fragments [.text "r", .group 2 [.text "r{2}", .group 0 [.text "r"]]]
    let two : Beats := ⟨2, 1, by decide⟩
    read "r" = .ok [.note ⟨[], .one⟩] ∧ read "r{2}" = .ok [.note ⟨[], two⟩] ∧
      read c.expand = .ok [.note ⟨[], .one⟩, .note ⟨[], two⟩, .note ⟨[], two⟩] := by
  intro c two
  have hone : read "r" = .ok [.note ⟨[], .one⟩] :=
    read_eq_ok_iff.mpr ⟨[⟨.rest, 1⟩], scan_eq_ok_iff.mpr ⟨[⟨[], ['r'], ⟨.rest, 1⟩⟩], [], rfl,
      .cons ⟨blank_nil, .rest, rfl, nofun⟩ .nil, blank_nil, rfl⟩, rfl⟩
  have hrow : Row false 1 [⟨[], ['r'], ⟨.rest, 1⟩⟩,
      ⟨[], '{' :: (['2'] ++ ['}']), ⟨.duration 2 1, 2⟩⟩] := by
    refine .cons ⟨blank_nil, .rest, rfl, nofun⟩ (.cons ⟨blank_nil, .whole ?_, rfl, ?_⟩ .nil)
    · exact ⟨⟨nofun, List.all_eq_true.mp rfl⟩, rfl, by decide⟩
    · exact fun _ => ⟨rfl, rfl⟩
  have hscan : scan "r{2}" = .ok [⟨.rest, 1⟩, ⟨.duration 2 1, 2⟩] :=
    scan_eq_ok_iff.mpr ⟨_, [], rfl, hrow, blank_nil, rfl⟩
  have htwo : read "r{2}" = .ok [.note ⟨[], two⟩] :=
    read_eq_ok_iff.mpr ⟨[⟨.rest, 1⟩, ⟨.duration 2 1, 2⟩], hscan, rfl⟩
  let f : String → List Event := fun t => [.note ⟨[], if t = "r" then .one else two⟩]
  have hc : ∀ t ∈ c.texts, read t = .ok (f t) := by
    intro t ht
    have htexts : t = "r" ∨ t = "r{2}" ∨ t = "r" := by
      simpa [c, Composition.texts, Fragment.texts, Fragment.textsAll] using ht
    rcases htexts with rfl | rfl | rfl
    · exact hone
    · exact htwo
    · exact hone
  exact ⟨hone, htwo, (c.expand_compositional f hc).1⟩

end Polyphony
