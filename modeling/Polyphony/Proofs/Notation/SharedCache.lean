import Polyphony.Notation.Reading

/-! # Readings that share a cache

A cache holds nothing but the frequencies of its texts. So a reading gives the same answer
at every such cache, and it leaves such a cache behind.
-/
namespace Polyphony.Notation

/-- Every entry of a cache is the frequency of its text. -/
def PitchCache.Sound (c : PitchCache) : Prop :=
  ∀ text freq, c.get? text = some freq → frequency? text = .ok freq

theorem PitchCache.sound_empty : PitchCache.empty.Sound := by
  intro text freq h
  rw [get?_empty] at h
  cases h

theorem PitchCache.get?_insert (c : PitchCache) (text other : String) (freq : Float) :
    get? ⟨c.entries.insert text freq⟩ other = if text = other then some freq else c.get? other := by
  simp [get?, Std.HashMap.getElem?_insert]

theorem PitchCache.Sound.resolve_fst {c : PitchCache} (h : c.Sound) (text : String) :
    (c.resolve text).1 = frequency? text := by
  unfold PitchCache.resolve
  cases hget : c.get? text with
  | some freq => exact (h text freq hget).symm
  | none => cases frequency? text <;> rfl

theorem PitchCache.Sound.resolve_snd {c : PitchCache} (h : c.Sound) (text : String) :
    (c.resolve text).2.Sound := by
  unfold PitchCache.resolve
  cases c.get? text with
  | some freq => exact h
  | none =>
    cases hfreq : frequency? text with
    | error cause => exact h
    | ok freq =>
      intro other freq' hget
      rw [get?_insert] at hget
      split at hget
      · rename_i heq
        rw [← heq, hfreq, Option.some.inj hget]
      · exact h other freq' hget

section

variable {α β : Type}

theorem bind_eq_ok {x : Except Error α} {f : α → Except Error β} {b : β} :
    x >>= f = .ok b ↔ ∃ a, x = .ok a ∧ f a = .ok b := by
  cases x with
  | error e => exact ⟨nofun, nofun⟩
  | ok a => exact ⟨fun h => ⟨a, rfl, h⟩, fun ⟨_, ha, h⟩ => Except.ok.inj ha ▸ h⟩

def outcome : EStateM.Result Error Desk α → Except Error α
  | .ok a _ => .ok a
  | .error e _ => .error e

def leftBehind : EStateM.Result Error Desk α → Desk
  | .ok _ desk | .error _ desk => desk

/-- At every desk with a sound cache the reading gives the same answer and leaves a sound
cache behind. -/
def Says (m : Reading α) (r : Except Error α) : Prop :=
  ∀ desk : Desk, desk.cache.Sound → outcome (m desk) = r ∧ (leftBehind (m desk)).cache.Sound

theorem says_pure (a : α) : Says (pure a) (.ok a) := fun _ h => ⟨rfl, h⟩

theorem says_throw (e : Error) : Says (throw e : Reading α) (.error e) := fun _ h => ⟨rfl, h⟩

theorem Says.bind {m : Reading α} {r : Except Error α} {f : α → Reading β}
    {g : α → Except Error β} (hm : Says m r) (hf : ∀ a, r = .ok a → Says (f a) (g a)) :
    Says (m >>= f) (r >>= g) := by
  intro desk hdesk
  rcases hm desk hdesk with ⟨hanswer, hsound⟩
  change outcome (EStateM.bind m f desk) = _ ∧ (leftBehind (EStateM.bind m f desk)).cache.Sound
  rw [EStateM.bind]
  cases hrun : m desk with
  | ok a desk' =>
    rw [hrun] at hanswer hsound
    subst hanswer
    exact hf a rfl desk' hsound
  | error e desk' =>
    rw [hrun] at hanswer hsound
    subst hanswer
    exact ⟨rfl, hsound⟩

theorem says_mapM {f : α → Reading β} {g : α → Except Error β} (h : ∀ a, Says (f a) (g a))
    (l : List α) : Says (l.mapM f) (l.mapM g) := by
  induction l with
  | nil => exact says_pure []
  | cons a l ih =>
    rw [List.mapM_cons, List.mapM_cons]
    exact (h a).bind fun b _ => ih.bind fun bs _ => says_pure _

end

end Polyphony.Notation
