import Polyphony.Line.Guarded
import Polyphony.Proofs.Effect.Guards
import Polyphony.Proofs.Line.History
import Polyphony.Proofs.Number.Encoding

/-! # Lines under guard

A line under guard comes out as it does without, or it is stopped. No guard of the reports fires as
long as ten times the number of events fits into 64 bits. Those of the notes ask for as much of the
windows of each envelope, and of the frames that the notes may take.
-/
namespace Polyphony

theorem Beats.toFrames_le {b : Beats} {bpm : Float} {frames : Nat}
    (h : b.toFrames bpm = some frames) : frames ≤ maxEventFrames := by
  have hlimit : (Float.ofNat maxEventFrames).toUInt64.toNat = maxEventFrames := by decide
  simp only [toFrames] at h
  split at h
  · rename_i hfinite
    obtain rfl := Option.some.inj h
    have hle := Number.toUInt64_le (by decide) hfinite.2
    rwa [UInt64.le_iff_toNat_le, hlimit] at hle
  · cases h

namespace LineState

variable {s t : LineState} {event : Event} {events : List Event}

/-- There is room in 64 bits for the windows of the envelopes and for the frames of the notes, from
a state on. -/
structure Roomy (s : LineState) (events : List Event) : Prop where
  standing : ∀ e, s.rack.envelope = some e → e.Fits
  coming : ∀ e, .command (.setEnvelope e) ∈ events → e.Fits
  frames : s.buffer.size + events.length * maxEventFrames < Number.countBound

theorem Roomy.frames_cons (h : s.Roomy (event :: events)) :
    s.buffer.size + maxEventFrames + events.length * maxEventFrames < Number.countBound := by
  have hframes := h.frames
  rw [List.length_cons, Nat.add_mul, Nat.one_mul] at hframes
  omega

theorem Roomy.step (h : s.Roomy (event :: events)) (hstep : s.step event = .ok t) :
    t.Roomy events := by
  have hframes := h.frames_cons
  have hcoming (e : Envelope) (he : .command (.setEnvelope e) ∈ events) : e.Fits :=
    h.coming e (List.mem_cons_of_mem _ he)
  cases event with
  | command c =>
    have hset := execute_eq_ok hstep
    refine ⟨fun e he => ?_, hcoming, ?_⟩
    · rw [hset] at he
      cases c with
      | setEnvelope e' =>
        obtain rfl := Option.some.inj he
        exact h.coming _ List.mem_cons_self
      | removeEffect id =>
        cases id with
        | envelope => cases he
        | echo => exact h.standing e he
      | _ => exact h.standing e he
    · have hbuffer : t.buffer = s.buffer := by rw [hset]
      rw [hbuffer]
      omega
  | note note =>
    have hsize := play_buffer_size hstep
    obtain ⟨frames, hnote, rfl⟩ := play_eq_ok_iff.mp hstep
    have hle := Beats.toFrames_le hnote
    rw [hnote, Option.getD_some] at hsize
    exact ⟨h.standing, hcoming, by omega⟩

theorem step?_eq (h : s.Roomy (event :: events)) : s.step? event = some (s.step event) := by
  have hframes := h.frames_cons
  cases event with
  | command c => rfl
  | note note =>
    rw [step?, step, play?, play]
    cases hnote : note.duration.toFrames s.bpm with
    | none => rfl
    | some frames =>
      have hle := Beats.toFrames_le hnote
      have hroom : s.buffer.size + frames < Number.countBound := by omega
      obtain ⟨feeds, hrun⟩ := Rack.exists_run?_eq h.standing
        (b := s.buffer ++ s.raw note.freqs frames) (by rwa [append_raw_size]) s.buffer.size
      simp only [Index.sum?_eq hroom, Option.bind_eq_bind, Option.bind_some, hrun]
      rfl

theorem step?_agrees (s : LineState) (event : Event) : Agrees (s.step? event) (s.step event) := by
  cases event with
  | command c => exact .of_eq rfl
  | note note =>
    rw [step?, step, play?, play]
    cases note.duration.toFrames s.bpm with
    | none => exact .of_eq rfl
    | some frames =>
      by_cases hroom : s.buffer.size + frames < Number.countBound
      · obtain ⟨feeds, hrun⟩ := s.rack.exists_run?_agrees
          (b := s.buffer ++ s.raw note.freqs frames) (by rwa [append_raw_size]) s.buffer.size
        exact .bind (.guard _) (.bind hrun (.of_eq rfl))
      · have hsum : Index.sum? s.buffer.size frames = none := if_neg hroom
        simp only [hsum]
        exact .stopped

end LineState

namespace Line
open LineState

variable {name : String} {n i : Nat} {events : List Event} {s : LineState} {p : Progress}

theorem advance?_eq (p : Progress) (name : String) {total done : Nat} (hdone : 0 < done)
    (hle : done ≤ total) (hfits : 10 * total < Number.countBound) :
    p.advance? name total done = some (p.advance name total done) := by
  have htenths : done * 10 / total ≤ 10 := by
    rw [Nat.div_le_iff_le_mul_add_pred (by omega)]
    omega
  have hproduct : Index.product? done 10 = some (done * 10) := if_pos (by omega)
  have hquotient : Index.quotient? (done * 10) total = some (done * 10 / total) :=
    if_neg (by omega)
  have hpercent : Index.product? (done * 10 / total) 10 = some (done * 10 / total * 10) :=
    if_pos (by rw [Number.countBound]; omega)
  rw [Progress.advance?, Progress.advance, hproduct]
  simp only [Option.bind_eq_bind, Option.bind_some, hquotient, hpercent]
  split <;> rfl

theorem advance?_agrees (p : Progress) (name : String) (total done : Nat) :
    Agrees (p.advance? name total done) (p.advance name total done) := by
  have hquotient : Agrees (Index.quotient? (done * 10) total) (done * 10 / total) := by
    rw [Index.quotient?]
    split
    · exact .stopped
    · exact .of_eq rfl
  refine .bind (.guard _) (.bind hquotient ?_)
  rw [Progress.advance]
  split
  · exact .bind (.guard _) (.of_eq rfl)
  · exact .of_eq rfl

/-- No guard fires on a walk whose steps pass theirs, where `P` says of a state and of the events to
come that they do. -/
theorem renderFrom?_eq {next : LineState → Event → Option (Except EventError LineState)}
    {P : LineState → List Event → Prop}
    (hnext : ∀ {s event events}, P s (event :: events) → next s event = some (s.step event))
    (hkeep : ∀ {s t event events}, P s (event :: events) → s.step event = .ok t → P t events)
    (h : P s events) (hle : i + events.length ≤ n) (hfits : 10 * n < Number.countBound) :
    renderFrom? next name n events i s p = some (renderFrom name n events i s p) := by
  induction events generalizing i s p with
  | nil => rfl
  | cons event events ih =>
    rw [List.length_cons] at hle
    rw [renderFrom?, renderFrom, hnext h]
    cases hstep : s.step event with
    | error cause => rfl
    | ok t =>
      have hdone : Index.sum? i 1 = some (i + 1) := if_pos (by omega)
      have hadvance : p.advance? name n (i + 1) = some (p.advance name n (i + 1)) :=
        advance?_eq p name (Nat.succ_pos i) (by omega) hfits
      simp only [hdone, Option.bind_eq_bind, Option.bind_some, hadvance]
      exact ih (hkeep h hstep) (by omega)

theorem renderFrom?_agrees (name : String) (n : Nat) (events : List Event) (i : Nat)
    (s : LineState) (p : Progress) :
    Agrees (renderFrom? step? name n events i s p) (renderFrom name n events i s p) := by
  induction events generalizing i s p with
  | nil => exact .of_eq rfl
  | cons event events ih =>
    refine .bind (s.step?_agrees event) ?_
    rw [renderFrom]
    cases s.step event with
    | error cause => exact .of_eq rfl
    | ok t => exact .bind (.guard _) (.bind (advance?_agrees p name n (i + 1)) (ih _ _ _))

variable (l : Line)

theorem render?_eq (hfits : 10 * l.events.length < Number.countBound) :
    l.render? = some l.render :=
  renderFrom?_eq (P := fun _ _ => True) (fun _ => rfl) (fun _ _ => trivial) trivial
    (Nat.le_of_eq (Nat.zero_add _)) hfits

theorem renderGuarded?_eq (henvelopes : ∀ e, .command (.setEnvelope e) ∈ l.events → e.Fits)
    (hfits : l.events.length * maxEventFrames < Number.countBound) :
    l.renderGuarded? = some l.render := by
  have hlimit : 10 ≤ maxEventFrames := by decide
  have hroom : (start l.baseTempo).Roomy l.events :=
    ⟨nofun, henvelopes, by rwa [start, Array.size_empty, Nat.zero_add]⟩
  have hreports : 10 * l.events.length < Number.countBound := by
    have hle := Nat.mul_le_mul_left l.events.length hlimit
    omega
  exact renderFrom?_eq step?_eq Roomy.step hroom (Nat.le_of_eq (Nat.zero_add _)) hreports

theorem renderGuarded?_agrees : Agrees l.renderGuarded? l.render :=
  renderFrom?_agrees _ _ _ _ _ _

end Line
end Polyphony
