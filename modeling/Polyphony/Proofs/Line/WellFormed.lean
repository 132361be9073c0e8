import Polyphony.Proofs.Line.Displacement
import Polyphony.Proofs.Notation.Joining
import Polyphony.Proofs.Number.Arithmetic

/-! # Well-formed states

A composition that is accepted asks for nothing that is infinite or undefined, and for no tempo
that is not above zero. So every state that its events lead to is well-formed, also when some of
them fail on the way.
-/
namespace Polyphony
open Notation

def Command.Proper : Command → Prop
  | .setTempo ratio => ratio.isFinite = true ∧ 0 < ratio
  | .setDynamics scale => scale.isFinite = true
  | .setCents cents => cents.isFinite = true
  | .setEnvelope e => e.peak.isFinite = true
  | .setEcho amplitude beatDelay =>
    amplitude.isFinite = true ∧ beatDelay.isFinite = true ∧ 0 ≤ beatDelay
  | .setInstrument _ | .removeEffect _ => True

def Event.Proper : Event → Prop
  | .command c => c.Proper
  | .note _ => True

namespace Notation

theorem finite?_isFinite {cs : List Char} {x : Float} (h : Number.finite? cs = some x) :
    x.isFinite = true :=
  (Option.filter_eq_some_iff.mp h).2

theorem quotient?_isFinite {num den x : Float} (h : ratio?.quotient? num den = some x) :
    x.isFinite = true := by
  unfold ratio?.quotient? at h
  split at h
  · cases h
  · exact (Option.filter_eq_some_iff.mp h).2

theorem ratio?_isFinite {cs : List Char} {x : Float} (h : ratio? cs = some x) :
    x.isFinite = true := by
  unfold ratio? at h
  split at h
  · obtain ⟨num, -, hquotient⟩ := Option.bind_eq_some_iff.mp h
    exact quotient?_isFinite hquotient
  · obtain ⟨num, -, hnum⟩ := Option.bind_eq_some_iff.mp h
    obtain ⟨den, -, hquotient⟩ := Option.bind_eq_some_iff.mp hnum
    exact quotient?_isFinite hquotient
  · cases h

theorem envelope?_isFinite {cs : List Char} {e : Envelope} (h : envelope? cs = some e) :
    e.peak.isFinite = true := by
  unfold envelope? at h
  split at h
  · obtain ⟨peak, hpeak, h⟩ := Option.bind_eq_some_iff.mp h
    obtain ⟨attack, -, h⟩ := Option.bind_eq_some_iff.mp h
    obtain ⟨decay, -, h⟩ := Option.bind_eq_some_iff.mp h
    obtain ⟨release, -, h⟩ := Option.bind_eq_some_iff.mp h
    cases h
    exact finite?_isFinite hpeak
  · cases h

theorem echo?_isFinite {cs : List Char} {amplitude beats : Float}
    (h : echo? cs = some (amplitude, beats)) :
    amplitude.isFinite = true ∧ beats.isFinite = true ∧ 0 ≤ beats := by
  unfold echo? at h
  split at h
  · obtain ⟨amplitude, hamplitude, h⟩ := Option.bind_eq_some_iff.mp h
    obtain ⟨beats, hbeats, h⟩ := Option.bind_eq_some_iff.mp h
    cases h
    obtain ⟨hfinite, hle⟩ := Option.filter_eq_some_iff.mp hbeats
    exact ⟨finite?_isFinite hamplitude, finite?_isFinite hfinite, of_decide_eq_true hle⟩
  · cases h

/-- Whatever a value says, the command that is made of it is proper. -/
theorem readCommand_proper {key value : String} {c : Command} {log : Log}
    (h : readCommand key value = .ok (c, log)) : c.Proper := by
  unfold readCommand at h
  dsimp only at h
  split at h
  · cases henvelope : envelope? value.toList with
    | none =>
      rw [henvelope] at h
      cases h
      trivial
    | some e =>
      rw [henvelope] at h
      cases h
      exact envelope?_isFinite henvelope
  · cases hecho : echo? value.toList with
    | none =>
      rw [hecho] at h
      cases h
      trivial
    | some r =>
      rw [hecho] at h
      cases h
      exact echo?_isFinite hecho
  · cases h
    trivial
  · split at h
    · rename_i ratio hratio
      cases h
      obtain ⟨hratio, hpos⟩ := Option.filter_eq_some_iff.mp hratio
      exact ⟨ratio?_isFinite hratio, of_decide_eq_true hpos⟩
    · cases h
  · split at h
    · rename_i scale hscale
      cases h
      exact ratio?_isFinite hscale
    · cases h
  · split at h
    · rename_i cents hcents
      cases h
      exact finite?_isFinite hcents
    · cases h
  · cases h

theorem Token.meaning_proper {token : Token} {c : Command}
    (h : token.meaning = .ok (.command c)) : c.Proper := by
  rcases token with ⟨lexeme, col⟩
  cases lexeme with
  | command key value =>
    obtain ⟨command, hcommand, hhead⟩ := bind_eq_ok.mp h
    cases hhead
    rw [commandAt] at hcommand
    cases hread : readCommand key value with
    | ok r =>
      rw [hread] at hcommand
      cases hcommand
      exact readCommand_proper hread
    | error cause =>
      rw [hread] at hcommand
      cases hcommand
  | rest | duration => cases h
  | note | chord =>
    obtain ⟨freqs, -, hhead⟩ := bind_eq_ok.mp h
    cases hhead

theorem Group.event_proper {g : Group} {event : Event} (h : g.event = .ok event) :
    event.Proper := by
  obtain ⟨head, hhead, hevent⟩ := bind_eq_ok.mp h
  cases head with
  | command c =>
    cases hevent
    exact Token.meaning_proper hhead
  | sound freqs =>
    cases hbeats : g.beats with
    | ok duration =>
      rw [hbeats] at hevent
      cases hevent
      trivial
    | error e =>
      rw [hbeats] at hevent
      cases hevent

theorem exists_mem_of_mapM_ok {α β : Type} {f : α → Except Error β} {l : List α} {bs : List β}
    (h : l.mapM f = .ok bs) : ∀ b ∈ bs, ∃ a ∈ l, f a = .ok b := by
  induction l generalizing bs with
  | nil =>
    cases h
    exact nofun
  | cons a l ih =>
    rw [List.mapM_cons] at h
    obtain ⟨b, hb, hrest⟩ := bind_eq_ok.mp h
    obtain ⟨bs, hbs, hpure⟩ := bind_eq_ok.mp hrest
    cases hpure
    refine List.forall_mem_cons.mpr ⟨⟨a, by simp, hb⟩, fun b' hb' => ?_⟩
    obtain ⟨a', ha', heq⟩ := ih hbs b' hb'
    exact ⟨a', by simp [ha'], heq⟩

/-- Every event of a composition that is accepted is proper. -/
theorem read_proper {source : String} {es : List Event} (h : read source = .ok es) :
    ∀ event ∈ es, event.Proper := by
  obtain ⟨tokens, -, hmeaning⟩ := read_eq_ok_iff.mp h
  intro event hevent
  obtain ⟨g, -, hg⟩ := exists_mem_of_mapM_ok hmeaning event hevent
  exact g.event_proper hg

end Notation

/-- An echo on a line of `frames` frames that has been installed at one of the tempos `inForce`. -/
structure Echo.WellFormed (inForce : Float → Prop) (frames : Nat) (e : Echo) : Prop where
  amplitude : e.amplitude.isFinite = true
  beatDelay : e.beatDelay.isFinite = true
  beatDelay_nonneg : 0 ≤ e.beatDelay
  activation : e.activation ≤ frames
  frameDelay : ∃ bpm, inForce bpm ∧
    e.frameDelay = (e.beatDelay * framesPerBeat bpm).toUInt64.toNat

theorem Echo.WellFormed.mono {inForce inForce' : Float → Prop} {frames frames' : Nat} {e : Echo}
    (h : e.WellFormed inForce frames) (htempo : ∀ bpm, inForce bpm → inForce' bpm)
    (hframes : frames ≤ frames') : e.WellFormed inForce' frames' := by
  obtain ⟨bpm, hbpm, hdelay⟩ := h.frameDelay
  exact ⟨h.amplitude, h.beatDelay, h.beatDelay_nonneg, Nat.le_trans h.activation hframes,
    bpm, htempo bpm hbpm, hdelay⟩

namespace LineState

/-- A state of a line of the tempo `base` on which the tempos `inForce` have been in force before:
its settings are finite, and its tempo is that of the line or a positive multiple of it. -/
structure WellFormed (base : Float) (inForce : Float → Prop) (s : LineState) : Prop where
  baseTempo : s.baseTempo = base
  bpm : s.bpm = base ∨ ∃ ratio : Float, ratio.isFinite = true ∧ 0 < ratio ∧ s.bpm = base * ratio
  dynamics : s.dynamics.isFinite = true
  cents : s.cents.isFinite = true
  envelope : ∀ e, s.rack.envelope = some e → e.peak.isFinite = true
  echo : ∀ e, s.rack.echo = some e → e.WellFormed inForce s.buffer.size

theorem start_wellFormed (base : Float) (inForce : Float → Prop) :
    (start base).WellFormed base inForce where
  baseTempo := rfl
  bpm := .inl rfl
  dynamics := show (1 : Float).isFinite = true by decide
  cents := show (0 : Float).isFinite = true by decide
  envelope := nofun
  echo := nofun

namespace WellFormed

variable {base : Float} {inForce : Float → Prop} {s t : LineState} {event : Event}

theorem mono {inForce' : Float → Prop} (h : s.WellFormed base inForce)
    (htempo : ∀ bpm, inForce bpm → inForce' bpm) : s.WellFormed base inForce' :=
  { h with echo := fun e he => (h.echo e he).mono htempo (Nat.le_refl _) }

theorem execute (h : s.WellFormed base inForce) {c : Command} (hc : c.Proper)
    (hstep : s.execute c = .ok t) : t.WellFormed base fun bpm => inForce bpm ∨ bpm = s.bpm := by
  have hkeep : s.WellFormed base fun bpm => inForce bpm ∨ bpm = s.bpm := h.mono fun _ => .inl
  cases c with
  | setTempo ratio =>
    cases hstep
    exact { hkeep with bpm := .inr ⟨ratio, hc.1, hc.2, by rw [h.baseTempo]⟩ }
  | setDynamics scale =>
    cases hstep
    exact { hkeep with dynamics := hc }
  | setCents cents =>
    cases hstep
    exact { hkeep with cents := hc }
  | setInstrument name =>
    rw [LineState.execute] at hstep
    split at hstep
    · cases hstep
      exact { hkeep with }
    · cases hstep
  | setEnvelope e =>
    cases hstep
    exact { hkeep with envelope := by rintro _ ⟨⟩; exact hc }
  | setEcho amplitude beatDelay =>
    cases hstep
    refine { hkeep with echo := ?_ }
    rintro _ ⟨⟩
    exact ⟨hc.1, hc.2.1, hc.2.2, Nat.le_refl _, s.bpm, .inr rfl, rfl⟩
  | removeEffect id =>
    cases hstep
    cases id with
    | envelope => exact { hkeep with envelope := by rintro _ ⟨⟩ }
    | echo => exact { hkeep with echo := by rintro _ ⟨⟩ }

theorem step (h : s.WellFormed base inForce) (hevent : event.Proper)
    (hstep : s.step event = .ok t) : t.WellFormed base fun bpm => inForce bpm ∨ bpm = s.bpm := by
  cases event with
  | command c => exact h.execute hevent hstep
  | note note =>
    have hsize := step_buffer_size_le hstep
    obtain ⟨frames, -, rfl⟩ := play_eq_ok_iff.mp hstep
    exact { h with echo := fun e he => (h.echo e he).mono (fun _ => .inl) hsize }

theorem goOn (h : s.WellFormed base inForce) (hevent : event.Proper) :
    (s.goOn event).WellFormed base fun bpm => inForce bpm ∨ bpm = s.bpm := by
  rw [LineState.goOn]
  cases hstep : s.step event with
  | ok t => exact h.step hevent hstep
  | error cause => exact h.mono fun _ => .inl

end WellFormed

/-- The state behind the first `n` events, of which some may have failed. -/
def behind (base : Float) (events : List Event) (n : Nat) : LineState :=
  (events.take n).foldl goOn (start base)

theorem behind_succ {events : List Event} {n : Nat} {event : Event} (base : Float)
    (h : events[n]? = some event) :
    behind base events (n + 1) = (behind base events n).goOn event := by
  rw [behind, List.take_add_one, h, List.foldl_append]
  rfl

theorem behind_wellFormed {events : List Event} (base : Float)
    (hevents : ∀ event ∈ events, event.Proper) (n : Nat) :
    (behind base events n).WellFormed base
      fun bpm => ∃ m < n, (behind base events m).bpm = bpm := by
  induction n with
  | zero => exact start_wellFormed base _
  | succ n ih =>
    cases hevent : events[n]? with
    | some event =>
      rw [behind_succ base hevent]
      refine (ih.goOn (hevents event (List.mem_of_getElem? hevent))).mono ?_
      rintro bpm (⟨m, hm, hbpm⟩ | hbpm)
      · exact ⟨m, by omega, hbpm⟩
      · exact ⟨n, by omega, hbpm.symm⟩
    | none =>
      have hend : behind base events (n + 1) = behind base events n := by
        rw [behind, List.take_add_one, hevent, Option.toList_none, List.append_nil, behind]
      rw [hend]
      refine ih.mono ?_
      rintro bpm ⟨m, hm, hbpm⟩
      exact ⟨m, by omega, hbpm⟩

/-- A tempo of a well-formed state is a number that is not negative. -/
theorem WellFormed.bpm_nonneg {base : Float} {inForce : Float → Prop} {s : LineState}
    (h : s.WellFormed base inForce) (hfinite : base.isFinite = true) (hpos : 0 < base) :
    s.bpm.isNaN = false ∧ 0 ≤ s.bpm := by
  have hbits : s.bpm.toBits.toNat ≤ Number.infiniteBits := by
    rcases h.bpm with hbase | ⟨ratio, hratio, hpos', hbpm⟩
    · rw [hbase]
      exact Number.toBits_le_of_pos hfinite hpos
    · rw [hbpm]
      exact Number.mul_toBits_le hfinite hpos hratio hpos'
  exact ⟨Number.defined_of_toBits_le hbits, Number.nonneg_of_toBits_le hbits⟩

/-- All along a composition that is accepted, the states of its line are well-formed, whichever of
its events fail. -/
theorem behind_wellFormed_of_accepted {base : Float} (hfinite : base.isFinite = true)
    (hpos : 0 < base) {desk : Desk} (hdesk : desk.cache.Sound) {source : String}
    {events : List Event} (h : outcome (Notation.events source desk) = .ok events) (n : Nat) :
    (behind base events n).WellFormed base
        (fun bpm => ∃ m < n, (behind base events m).bpm = bpm) ∧
      (behind base events n).bpm.isNaN = false ∧ 0 ≤ (behind base events n).bpm := by
  rw [outcome_events hdesk] at h
  have hwell := behind_wellFormed base (read_proper h) n
  exact ⟨hwell, hwell.bpm_nonneg hfinite hpos⟩

/-- Nobody knows the instrument, and the line goes on behind it at the tempo that is in force. -/
theorem behind_wellFormed_of_accepted_unknown : ∃ events,
    outcome (Notation.events "(TEMPO=2)(INST=x)(ECHO=0.5;1)r" .empty) = .ok events ∧
      (behind 120 events 3).WellFormed 120 (fun bpm => ∃ m < 3, (behind 120 events m).bpm = bpm) ∧
      (behind 120 events 3).bpm.isNaN = false ∧ 0 ≤ (behind 120 events 3).bpm := by
  have haccepted : outcome (Notation.events "(TEMPO=2)(INST=x)(ECHO=0.5;1)r" .empty) =
      .ok [.command (.setTempo 2), .command (.setInstrument "x"), .command (.setEcho 0.5 1),
        .note ⟨[], .one⟩] := by
    with_unfolding_all rfl
  exact ⟨_, haccepted,
    behind_wellFormed_of_accepted (by decide) (by decide) PitchCache.sound_empty haccepted 3⟩

end LineState
end Polyphony
