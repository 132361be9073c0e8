import Polyphony.Effect.Guarded
import Polyphony.Proofs.Effect.Samples

/-! # Guards that never fire

Under guard the effects do what they do without. The bounds of the loops keep each index
inside of the buffer, whose size 64 bits hold, and each sum of indices stays at or below that
size. An echo feeds each sample that it reaches once, and no other. Only the windows of an
envelope can leave the 64 bits, and then the guard stops the run and never lets it go astray.
-/
namespace Polyphony

/-- A run under guard stops or has this result. -/
def Agrees {α : Type} (run : Option α) (result : α) : Prop := ∀ r, run = some r → r = result

namespace Agrees

variable {α β : Type} {run : Option α} {a : α} {b : β}

theorem of_eq (h : run = some a) : Agrees run a := fun _ hr => Option.some.inj (hr.symm.trans h)

theorem stopped : Agrees none a := nofun

theorem guard {c : Prop} [Decidable c] (a : α) : Agrees (if c then some a else none) a := by
  split
  · exact .of_eq rfl
  · exact .stopped

theorem bind {rest : α → Option β} (h : Agrees run a) (hrest : Agrees (rest a) b) :
    Agrees (run >>= rest) b := by
  intro r hr
  obtain ⟨x, hx, hr⟩ := Option.bind_eq_some_iff.mp hr
  obtain rfl := h x hx
  exact hrest r hr

end Agrees

namespace Index

theorem sum?_eq {i j : Nat} (h : i + j < Number.countBound) : sum? i j = some (i + j) :=
  if_pos h

theorem difference?_eq {i j : Nat} (h : j ≤ i) : difference? i j = some (i - j) := if_pos h

end Index

theorem Buffer.change?_eq {b : Buffer} {i : Nat} (h : i < b.size) (f : Float → Float) :
    Buffer.change? b i f = some (b.modify i f) := if_pos h

namespace Envelope

/-- The windows of an envelope end at an index that 64 bits hold. -/
def Fits (e : Envelope) : Prop := e.attack + e.decay < Number.countBound

variable {e : Envelope}

theorem decayEnd_eq (h : e.Fits) : e.decayEnd = e.attack + e.decay := Nat.mod_eq_of_lt h

/-- Windows whose sum starts over at zero leave no age for the decay. -/
theorem gain_of_not_fits (h : ¬ e.Fits) (hattack : e.attack < Number.countBound)
    (hdecay : e.decay < Number.countBound) {age : Nat} (hage : e.attack ≤ age) (left : Nat) :
    e.gain age left = { e with decay := 0 }.gain age left := by
  have hover : ¬ age < e.decayEnd := by
    rw [Fits, Number.countBound] at h
    rw [Number.countBound] at hattack hdecay
    rw [decayEnd, Number.countBound]
    omega
  have hnone : ¬ age < decayEnd { e with decay := 0 } := by
    rw [decayEnd_eq (e := { e with decay := 0 }) hattack]
    exact Nat.not_lt.mpr hage
  have hrisen : ¬ age < e.attack := Nat.not_lt.mpr hage
  rw [gain, gain, if_neg hrisen, if_neg hrisen, if_neg hover, if_neg hnone]

/-- A decay over all of the 64 bits behind an attack of one frame is left out. -/
example : gain ⟨2, 1, 18446744073709551615, 0⟩ 1 1 = 1 := rfl

theorem gain?_eq (h : e.Fits) (age left : Nat) : e.gain? age left = some (e.gain age left) := by
  rw [gain?, gain, decayEnd_eq h]
  by_cases hattack : age < e.attack
  · rw [if_pos hattack, if_pos hattack]
  rw [if_neg hattack, if_neg hattack, Index.sum?_eq h, Option.bind_eq_bind, Option.bind_some]
  by_cases hdecay : age < e.attack + e.decay
  · rw [if_pos hdecay, if_pos hdecay, Index.difference?_eq (by omega)]
    rfl
  rw [if_neg hdecay, if_neg hdecay]
  by_cases hrelease : left < e.release
  · rw [if_pos hrelease, if_pos hrelease, Index.difference?_eq (by omega)]
    rfl
  · rw [if_neg hrelease, if_neg hrelease]

theorem gain?_agrees (e : Envelope) (age left : Nat) :
    Agrees (e.gain? age left) (e.gain age left) := by
  by_cases h : e.Fits
  · exact .of_eq (gain?_eq h age left)
  rw [gain?, gain]
  by_cases hattack : age < e.attack
  · rw [if_pos hattack, if_pos hattack]
    exact .of_eq rfl
  · have hsum : Index.sum? e.attack e.decay = none := if_neg h
    rw [if_neg hattack, hsum]
    exact .stopped

/-- Windows that 64 bits do not hold stop the run behind the attack. -/
example : gain? ⟨1, 2 ^ 63, 2 ^ 63, 0⟩ (2 ^ 63) 1 = none := rfl

theorem shape?_eq (h : e.Fits) {start count i : Nat} {b : Buffer} (hlow : start ≤ i)
    (hhigh : i + count ≤ b.size) :
    e.shape? start count i b = some (e.shape start count i b) := by
  induction count generalizing i b with
  | zero => rfl
  | succ count ih =>
    have hnext : i + 1 + count ≤ (b.modify i (· * e.gain (i - start) (b.size - i))).size := by
      rw [Array.size_modify]
      omega
    rw [shape?, Index.difference?_eq hlow, Index.difference?_eq (by omega)]
    simp only [Option.bind_eq_bind, Option.bind_some]
    rw [gain?_eq h, Option.bind_some, Buffer.change?_eq (by omega), Option.bind_some,
      ih (by omega) hnext, shape]

theorem shape?_agrees (e : Envelope) (start count i : Nat) (b : Buffer) :
    Agrees (e.shape? start count i b) (e.shape start count i b) := by
  induction count generalizing i b with
  | zero => exact .of_eq rfl
  | succ count ih =>
    exact .bind (.guard _) (.bind (.guard _) (.bind (e.gain?_agrees _ _) (.bind (.guard _) (ih _ _))))

theorem run?_eq (h : e.Fits) (b : Buffer) (start : Nat) :
    e.run? b start = some (e.apply b start) := by
  rw [run?, apply]
  by_cases hstart : start ≤ b.size
  · rw [shape?_eq h (Nat.le_refl _) (by omega)]
  · rw [Nat.sub_eq_zero_of_le (by omega)]
    rfl

end Envelope

namespace Echo

def feeds (e : Echo) (count t : Nat) : List Feed :=
  (List.range' t count).map fun t => ⟨t, t + e.frameDelay⟩

variable {e : Echo}

theorem feed?_eq {count t : Nat} {b : Buffer} (hb : b.size < Number.countBound)
    (h : count = 0 ∨ t + count + e.frameDelay ≤ b.size) :
    e.feed? count t b = some (e.feed count t b, e.feeds count t) := by
  induction count generalizing t b with
  | zero => rfl
  | succ count ih =>
    have hsource : b[t]? = some (b.getD t 0) := by
      rw [Array.getD_eq_getD_getElem?, Array.getElem?_eq_getElem (by omega), Option.getD_some]
    have hsize : (b.modify (t + e.frameDelay) (· + e.amplitude * b.getD t 0)).size = b.size :=
      Array.size_modify
    rw [feed?, hsource, Index.sum?_eq (by omega)]
    simp only [Option.bind_eq_bind, Option.bind_some]
    rw [Buffer.change?_eq (by omega), Option.bind_some, ih (by omega) (by omega), Option.bind_some,
      feed, feeds, feeds, List.range'_succ, List.map_cons]

theorem run?_eq (e : Echo) {b : Buffer} (hb : b.size < Number.countBound) (start : Nat) :
    e.run? b start = some (e.apply b start,
      e.feeds (b.size - e.frameDelay - max (start - e.frameDelay) e.activation)
        (max (start - e.frameDelay) e.activation)) := by
  rw [run?, apply]
  by_cases hnone : b.size - e.frameDelay ≤ max (start - e.frameDelay) e.activation
  · rw [if_pos hnone, Nat.sub_eq_zero_of_le hnone]
    rfl
  · rw [if_neg hnone, Index.difference?_eq (by omega), Option.bind_eq_bind, Option.bind_some,
      feed?_eq hb (by omega)]

/-- An index hears one contribution if the loop reaches it, and else none. -/
theorem filter_feeds (e : Echo) (count t i : Nat) :
    (e.feeds count t).filter (·.target = i) =
      if t + e.frameDelay ≤ i ∧ i < t + count + e.frameDelay then [⟨i - e.frameDelay, i⟩]
      else [] := by
  induction count generalizing t with
  | zero =>
    rw [if_neg (by omega)]
    rfl
  | succ count ih =>
    have hcons : e.feeds (count + 1) t = ⟨t, t + e.frameDelay⟩ :: e.feeds count (t + 1) := by
      rw [feeds, feeds, List.range'_succ, List.map_cons]
    rw [hcons, List.filter_cons, ih]
    by_cases hi : t + e.frameDelay = i
    · rw [if_pos (by simpa using hi), if_neg (by omega), if_pos (by omega), ← hi,
        Nat.add_sub_cancel]
    · have hrange : (t + 1 + e.frameDelay ≤ i ∧ i < t + 1 + count + e.frameDelay) ↔
          (t + e.frameDelay ≤ i ∧ i < t + (count + 1) + e.frameDelay) := by omega
      rw [if_neg (by simpa using hi)]
      simp only [hrange]

end Echo

namespace Rack

theorem runEnvelope?_eq {r : Rack} (hr : ∀ e, r.envelope = some e → e.Fits) (b : Buffer)
    (start : Nat) : r.runEnvelope? b start = some (r.applyEnvelope b start) := by
  rcases r with ⟨_ | e, echo⟩
  · rfl
  · exact Envelope.run?_eq (hr e rfl) b start

theorem runEnvelope?_agrees (r : Rack) (b : Buffer) (start : Nat) :
    Agrees (r.runEnvelope? b start) (r.applyEnvelope b start) := by
  rcases r with ⟨_ | e, echo⟩
  · exact .of_eq rfl
  · exact e.shape?_agrees _ _ _ _

theorem applyEnvelope_size (r : Rack) (b : Buffer) (start : Nat) :
    (r.applyEnvelope b start).size = b.size := by
  rcases r with ⟨_ | e, echo⟩
  · rfl
  · exact e.apply_size b start

theorem exists_runEcho?_eq (r : Rack) {b : Buffer} (hb : b.size < Number.countBound)
    (start : Nat) : ∃ feeds, r.runEcho? b start = some (r.applyEcho b start, feeds) := by
  rcases r with ⟨envelope, _ | e⟩
  · exact ⟨[], rfl⟩
  · exact ⟨_, e.run?_eq hb start⟩

theorem exists_run?_eq {r : Rack} (hr : ∀ e, r.envelope = some e → e.Fits) {b : Buffer}
    (hb : b.size < Number.countBound) (start : Nat) :
    ∃ feeds, r.run? b start = some (r.apply b start, feeds) := by
  rw [run?, runEnvelope?_eq hr]
  exact r.exists_runEcho?_eq (by rwa [applyEnvelope_size]) start

theorem exists_run?_agrees (r : Rack) {b : Buffer} (hb : b.size < Number.countBound)
    (start : Nat) : ∃ feeds, Agrees (r.run? b start) (r.apply b start, feeds) := by
  have hsize : (r.applyEnvelope b start).size < Number.countBound := by
    rwa [applyEnvelope_size]
  obtain ⟨feeds, hecho⟩ := r.exists_runEcho?_eq hsize start
  exact ⟨feeds, .bind (r.runEnvelope?_agrees b start) (.of_eq hecho)⟩

/-- Under guard the effects of an event leave what they leave without. They keep the size of
the buffer and all samples before the event. A sample that lies before the event, or less than
one delay behind the activation of the echo, has nothing but its envelope; each other sample
hears the sample one delay earlier, once. -/
theorem apply_within_guards (r : Rack) (hr : ∀ e, r.envelope = some e → e.Fits) {b : Buffer}
    (hb : b.size < Number.countBound) (start : Nat) :
    ∃ feeds, r.run? b start = some (r.apply b start, feeds) ∧
      (r.apply b start).size = b.size ∧
      (∀ i < start, (r.apply b start)[i]? = b[i]?) ∧
      (r.echo = none → feeds = [] ∧ r.apply b start = r.applyEnvelope b start) ∧
      ∀ e, r.echo = some e →
        (∀ i, i < start ∨ i < e.activation + e.frameDelay →
          feeds.filter (·.target = i) = [] ∧
            (r.apply b start)[i]? = (r.applyEnvelope b start)[i]?) ∧
        ∀ i < b.size, start ≤ i → e.activation + e.frameDelay ≤ i →
          feeds.filter (·.target = i) = [⟨i - e.frameDelay, i⟩] ∧
            (r.apply b start)[i]? = (r.applyEnvelope b start)[i]?.map fun x =>
              x + e.heard (r.apply b start) i x := by
  have hsize := r.applyEnvelope_size b start
  have hbelow (i : Nat) (hi : i < start) : (r.apply b start)[i]? = b[i]? :=
    r.apply_getElem?_below hi
  rw [run?, runEnvelope?_eq hr, Option.bind_eq_bind, Option.bind_some]
  rcases r with ⟨envelope, _ | e⟩
  · exact ⟨[], rfl, apply_size _ _ _, hbelow, fun _ => ⟨rfl, rfl⟩, nofun⟩
  refine ⟨_, Echo.run?_eq e (by omega) start, apply_size _ _ _, hbelow, nofun, ?_⟩
  rintro _ ⟨⟩
  refine ⟨fun i hi => ?_, fun i hi hstart hactive => ?_⟩
  · rw [Echo.filter_feeds, if_neg (by omega)]
    exact ⟨rfl, by rw [apply, applyEcho, Echo.apply_getElem?, if_neg (by omega)]⟩
  · rw [Echo.filter_feeds, if_pos (by omega)]
    exact ⟨rfl, by rw [apply, applyEcho, Echo.apply_getElem?, if_pos ⟨hstart, hactive⟩]⟩

/-- A fade over the last sample of four, and an echo of two frames behind the first. -/
theorem apply_within_guards_fade :
    let r : Rack := ⟨some ⟨1, 0, 0, 2⟩, some ⟨0.5, 1, 2, 1⟩⟩
    let b : Buffer := #[1, 1, 1, 1]
    (∀ e, r.envelope = some e → e.Fits) ∧ b.size < Number.countBound ∧
      ∃ feeds, r.run? b 1 = some (r.apply b 1, feeds) ∧ (r.apply b 1)[0]? = some 1 ∧
        feeds.filter (·.target = 2) = [] ∧ feeds.filter (·.target = 3) = [⟨1, 3⟩] := by
  intro r b
  have hr : ∀ e, r.envelope = some e → e.Fits := by
    rintro _ ⟨⟩
    exact show 0 + 0 < Number.countBound by decide
  have hb : b.size < Number.countBound := by decide
  obtain ⟨feeds, hrun, -, hbelow, -, hecho⟩ := apply_within_guards r hr hb 1
  obtain ⟨hunfed, hfed⟩ := hecho _ rfl
  exact ⟨hr, hb, feeds, hrun, hbelow 0 (by decide), (hunfed 2 (.inr (by decide))).1,
    (hfed 3 (by decide) (by decide) (by decide)).1⟩

end Rack
end Polyphony
