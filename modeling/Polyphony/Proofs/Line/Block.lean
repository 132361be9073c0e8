import Polyphony.Proofs.Line.History

/-! # Blocks of commands

A block is a list of commands with no note between them. It takes no time, and of all its
commands on one field only the last counts. Neighbours on different fields may change places,
unless one sets the tempo that the other one takes up for its echo.
-/
namespace Polyphony

inductive Setting where
  | tempo | dynamics | cents | instrument | envelope | echo
deriving DecidableEq, Repr

namespace Command

def setting : Command → Setting
  | .setTempo _ => .tempo
  | .setDynamics _ => .dynamics
  | .setCents _ => .cents
  | .setInstrument _ => .instrument
  | .setEnvelope _ | .removeEffect .envelope => .envelope
  | .setEcho _ _ | .removeEffect .echo => .echo

/-- One of two commands sets a tempo, and the other one installs an echo. -/
def Entangled : Command → Command → Prop
  | .setTempo _, .setEcho _ _ | .setEcho _ _, .setTempo _ => True
  | _, _ => False

/-- What a field holds behind some commands: what the last of them on the field has set, where
`sets` gives what a command sets the field to, and else what it has held before. -/
def lastSet {α : Type} (sets : Command → Option α) (held : α) (cs : List Command) : α :=
  (cs.filterMap sets).getLast?.getD held

theorem lastSet_cons {α : Type} (sets : Command → Option α) (held : α) (c : Command)
    (cs : List Command) :
    lastSet sets held (c :: cs) = lastSet sets ((sets c).getD held) cs := by
  rw [lastSet, lastSet]
  cases hc : sets c with
  | none =>
    rw [List.filterMap_cons_none hc]
    rfl
  | some x =>
    rw [List.filterMap_cons_some hc, List.getLast?_cons]
    rfl

theorem lastSet_none {α : Type} (held : α) (cs : List Command) :
    lastSet (fun _ => none) held cs = held := by
  rw [lastSet, List.filterMap_eq_nil_iff.mpr fun _ _ => rfl]
  rfl

def Silent (c : Command) : Setting → Prop
  | .tempo => ∀ base, c.tempo? base = none
  | .dynamics => c.dynamics? = none
  | .cents => c.cents? = none
  | .instrument => c.preset? = none
  | .envelope => c.envelope? = none
  | .echo => ∀ bpm frames, c.echo? bpm frames = none

variable {c d : Command}

theorem silent_of_ne {field : Setting} (h : c.setting ≠ field) : c.Silent field := by
  cases c with
  | removeEffect id =>
    cases id <;> cases field <;>
      simp_all [setting, Silent, tempo?, dynamics?, cents?, preset?, envelope?, echo?]
  | _ =>
    cases field <;>
      simp_all [setting, Silent, tempo?, dynamics?, cents?, preset?, envelope?, echo?]

/-- Of two commands on different fields at most one sets a field. -/
theorem silent_or_silent (h : c.setting ≠ d.setting) (field : Setting) :
    c.Silent field ∨ d.Silent field := by
  by_cases hc : c.setting = field
  · exact .inr (silent_of_ne fun hd => h (hc.trans hd.symm))
  · exact .inl (silent_of_ne hc)

theorem echo?_isSome (h : c.setting = .echo) (bpm : Float) (frames : Nat) :
    (c.echo? bpm frames).isSome = true := by
  cases c with
  | setEcho amplitude beatDelay => rfl
  | removeEffect id =>
    cases id with
    | envelope => cases h
    | echo => rfl
  | _ => cases h

/-- What an echo is installed with does not depend on a command that sets no tempo for it. -/
theorem echo?_tempo (h : ¬ c.Entangled d) (base bpm : Float) (frames : Nat) :
    d.echo? ((c.tempo? base).getD bpm) frames = d.echo? bpm frames := by
  cases c with
  | setTempo ratio =>
    cases d with
    | setEcho amplitude beatDelay => exact absurd trivial h
    | removeEffect id => cases id <;> rfl
    | _ => rfl
  | _ => rfl

end Command

namespace LineState
open Command

def set (s : LineState) (c : Command) : LineState where
  baseTempo := s.baseTempo
  bpm := (c.tempo? s.baseTempo).getD s.bpm
  dynamics := c.dynamics?.getD s.dynamics
  cents := c.cents?.getD s.cents
  instrument := c.preset?.getD s.instrument
  rack := ⟨c.envelope?.getD s.rack.envelope, (c.echo? s.bpm s.buffer.size).getD s.rack.echo⟩
  buffer := s.buffer

/-- A command fails in no state or, for its instrument, in all of them. -/
theorem execute_cases (c : Command) :
    (∀ s : LineState, s.execute c = .ok (s.set c)) ∨
      c.setting = .instrument ∧ ∃ cause, ∀ s : LineState, s.execute c = .error cause := by
  have hset (h : ∀ s : LineState, ∃ t, s.execute c = .ok t) (s : LineState) :
      s.execute c = .ok (s.set c) := by
    obtain ⟨t, ht⟩ := h s
    rw [ht, execute_eq_ok ht]
    rfl
  cases c with
  | setInstrument name =>
    cases hname : Preset.ofName? name with
    | some preset => exact .inl (hset fun s => ⟨_, by rw [execute, hname]⟩)
    | none => exact .inr ⟨rfl, _, fun s => by rw [execute, hname]⟩
  | _ => exact .inl (hset fun s => ⟨_, rfl⟩)

theorem getD_comm {α : Type} {a b : Option α} (h : a = none ∨ b = none) (x : α) :
    a.getD (b.getD x) = b.getD (a.getD x) := by
  rcases h with rfl | rfl <;> rfl

variable {s t : LineState} {c d : Command} {cs : List Command}

theorem set_comm (h : c.setting ≠ d.setting) (hfree : ¬ c.Entangled d) (s : LineState) :
    (s.set c).set d = (s.set d).set c := by
  have hfree' : ¬ d.Entangled c := by
    cases c <;> cases d <;> exact hfree
  have hsilent := silent_or_silent h
  have htempo := (hsilent .tempo).imp (· s.baseTempo) (· s.baseTempo)
  have hecho := (hsilent .echo).imp (· s.bpm s.buffer.size) (· s.bpm s.buffer.size)
  simp only [set, echo?_tempo hfree, echo?_tempo hfree', getD_comm htempo,
    getD_comm (hsilent .dynamics), getD_comm (hsilent .cents), getD_comm (hsilent .instrument),
    getD_comm (hsilent .envelope), getD_comm hecho]

theorem set_idem (s : LineState) (c : Command) : (s.set c).set c = s.set c := by
  have hfree : ¬ c.Entangled c := by cases c <;> exact id
  have hidem {α : Type} (a : Option α) (x : α) : a.getD (a.getD x) = a.getD x := by
    cases a <;> rfl
  simp only [set, echo?_tempo hfree, hidem]

theorem execute_idem (s : LineState) (c : Command) :
    (s.execute c >>= fun t => t.execute c) = s.execute c := by
  rcases execute_cases c with hc | ⟨-, cause, hc⟩
  · rw [hc]
    change (s.set c).execute c = .ok (s.set c)
    rw [hc, set_idem]
  · rw [hc]
    rfl

theorem execute_comm (h : c.setting ≠ d.setting) (hfree : ¬ c.Entangled d) (s : LineState) :
    (s.execute c >>= fun t => t.execute d) = s.execute d >>= fun t => t.execute c := by
  rcases execute_cases c with hc | ⟨hfield, cause, hc⟩
  · rcases execute_cases d with hd | ⟨-, cause, hd⟩
    · rw [hc, hd]
      change (s.set c).execute d = (s.set d).execute c
      rw [hc, hd, set_comm h hfree]
    · rw [hc, hd]
      exact hd _
  · rcases execute_cases d with hd | ⟨hfield', -⟩
    · rw [hc, hd]
      exact (hc _).symm
    · -- two commands that fail are on the same field
      exact absurd (hfield.trans hfield'.symm) h

/-- Carry out a block of commands up to the first that fails. -/
def obey (s : LineState) (cs : List Command) : Except EventError LineState := cs.foldlM execute s

theorem obey_cons (s : LineState) (c : Command) (cs : List Command) :
    s.obey (c :: cs) = s.execute c >>= fun t => t.obey cs := List.foldlM_cons

theorem obey_append (s : LineState) (as bs : List Command) :
    s.obey (as ++ bs) = s.obey as >>= fun t => t.obey bs := List.foldlM_append

theorem obey_pair (s : LineState) (c d : Command) (cs : List Command) :
    s.obey (c :: d :: cs) = (s.execute c >>= fun t => t.execute d) >>= fun t => t.obey cs := by
  rw [obey_cons, bind_assoc]
  rfl

theorem obey_cons_eq_ok (h : s.obey (c :: cs) = .ok t) : (s.set c).obey cs = .ok t := by
  rw [obey_cons] at h
  rcases execute_cases c with hc | ⟨-, cause, hc⟩
  · rwa [hc] at h
  · rw [hc] at h
    cases h

theorem obey_append_eq_ok {as bs : List Command} (h : s.obey (as ++ bs) = .ok t) :
    ∃ u, s.obey as = .ok u ∧ u.obey bs = .ok t := by
  rw [obey_append] at h
  cases hu : s.obey as with
  | ok u =>
    rw [hu] at h
    exact ⟨u, rfl, h⟩
  | error cause =>
    rw [hu] at h
    cases h

/-- A field behind a block holds what the last command on it has set, if each command leaves the
field as it is or sets it to the value that `g` gives. -/
theorem obey_field {α : Type} {f : LineState → α} {g : Command → Option α}
    (hset : ∀ u : LineState, u.baseTempo = s.baseTempo →
      ∀ c ∈ cs, f (u.set c) = (g c).getD (f u))
    (h : s.obey cs = .ok t) : f t = lastSet g (f s) cs := by
  induction cs generalizing s with
  | nil =>
    obtain rfl := Except.ok.inj h
    rfl
  | cons c cs ih =>
    have hlater : f t = lastSet g (f (s.set c)) cs :=
      ih (fun u hu d hd => hset u hu d (List.mem_cons_of_mem c hd)) (obey_cons_eq_ok h)
    rw [hlater, hset s rfl c List.mem_cons_self, lastSet_cons]

/-- A field that no command of a block sets keeps its value. -/
theorem obey_held {α : Type} {f : LineState → α}
    (hset : ∀ u : LineState, ∀ c ∈ cs, f (u.set c) = f u) (h : s.obey cs = .ok t) : f t = f s := by
  have hfield := obey_field (g := fun _ => none) (fun u _ c hc => hset u c hc) h
  rwa [lastSet_none] at hfield

theorem obey_bpm (h : s.obey cs = .ok t) : t.bpm = lastSet (tempo? s.baseTempo) s.bpm cs :=
  obey_field (fun u hu c _ => by rw [set, hu]) h

theorem obey_echo_held (hcs : ∀ c ∈ cs, c.setting ≠ .echo) (h : s.obey cs = .ok t) :
    t.rack.echo = s.rack.echo := by
  refine obey_held (f := fun u => u.rack.echo) (fun u c hc => ?_) h
  rw [set, silent_of_ne (hcs c hc) u.bpm u.buffer.size]
  rfl

/-- The echo behind a block is that of its last command on the echo, which takes up the tempo
that the commands before it have left. -/
theorem obey_echo {before after : List Command} (h : s.obey (before ++ c :: after) = .ok t)
    (hc : c.setting = .echo) (hafter : ∀ d ∈ after, d.setting ≠ .echo) :
    c.echo? (lastSet (tempo? s.baseTempo) s.bpm before) s.buffer.size = some t.rack.echo := by
  obtain ⟨u, hbefore, hrest⟩ := obey_append_eq_ok h
  have hbuffer : u.buffer = s.buffer := obey_held (fun _ _ _ => rfl) hbefore
  have hkeep : t.rack.echo = (u.set c).rack.echo :=
    obey_echo_held hafter (obey_cons_eq_ok hrest)
  obtain ⟨echo, hecho⟩ := Option.isSome_iff_exists.mp (echo?_isSome hc u.bpm u.buffer.size)
  rw [hkeep, ← obey_bpm hbefore, ← hbuffer, set, hecho]
  rfl

/-- A block leaves the samples and the tempo of the line alone. Each field behind it holds what
the last command on the field has set; a tempo is relative to the line, and an echo begins behind
the samples and has the tempo that stands where it is installed. So a command that is repeated
counts once, and neighbours on different fields may change places unless they are a tempo and an
echo. -/
theorem obey_last_of_each (s : LineState) :
    (∀ cs t, s.obey cs = .ok t →
      t.buffer = s.buffer ∧ t.baseTempo = s.baseTempo ∧
      t.bpm = lastSet (tempo? s.baseTempo) s.bpm cs ∧
      t.dynamics = lastSet dynamics? s.dynamics cs ∧
      t.cents = lastSet cents? s.cents cs ∧
      t.instrument = lastSet preset? s.instrument cs ∧
      t.rack.envelope = lastSet envelope? s.rack.envelope cs ∧
      ((∀ c ∈ cs, c.setting ≠ .echo) → t.rack.echo = s.rack.echo) ∧
      (∀ before c after, cs = before ++ c :: after → c.setting = .echo →
        (∀ d ∈ after, d.setting ≠ .echo) →
          c.echo? (lastSet (tempo? s.baseTempo) s.bpm before) s.buffer.size = some t.rack.echo) ∧
      ∀ before amplitude beatDelay after, cs = before ++ .setEcho amplitude beatDelay :: after →
        (∀ d ∈ after, d.setting ≠ .echo) →
          let beat := framesPerBeat (lastSet (tempo? s.baseTempo) s.bpm before)
          t.rack.echo = some
            { amplitude := amplitude
              beatDelay := beatDelay
              frameDelay := (beatDelay * beat).toUInt64.toNat
              activation := s.buffer.size }) ∧
    (∀ before c after, s.obey (before ++ c :: c :: after) = s.obey (before ++ c :: after)) ∧
    ∀ before c d after, c.setting ≠ d.setting → ¬ c.Entangled d →
      s.obey (before ++ c :: d :: after) = s.obey (before ++ d :: c :: after) := by
  refine ⟨fun cs t h => ?_, fun before c after => ?_, fun before c d after hne hfree => ?_⟩
  · refine ⟨obey_held (fun _ _ _ => rfl) h, obey_held (fun _ _ _ => rfl) h, obey_bpm h,
      obey_field (fun _ _ _ _ => rfl) h, obey_field (fun _ _ _ _ => rfl) h,
      obey_field (fun _ _ _ _ => rfl) h,
      obey_field (f := fun t => t.rack.envelope) (fun _ _ _ _ => rfl) h,
      fun hcs => obey_echo_held hcs h, ?_, ?_⟩
    · rintro before c after rfl hc hafter
      exact obey_echo h hc hafter
    · rintro before amplitude beatDelay after rfl hafter
      exact (Option.some.inj (obey_echo h rfl hafter)).symm
  · rw [obey_append, obey_append]
    refine bind_congr fun t => ?_
    rw [obey_pair, execute_idem, obey_cons]
  · rw [obey_append, obey_append]
    refine bind_congr fun t => ?_
    rw [obey_pair, obey_pair, execute_comm hne hfree]

/-- A tempo neither moves the echo before it nor piles up on an earlier one, and a tuning may
change places with an echo. The echo begins behind the two samples of the line. -/
theorem obey_last_of_each_echo :
    let s := { start 120 with buffer := #[0.5, 1] }
    let cs : List Command := [.setTempo 2, .setEcho 0.5 1, .setTempo 0.5]
    ∃ t, s.obey cs = .ok t ∧ t.bpm = 120 * 0.5 ∧
      t.rack.echo = some (.install 0.5 1 (framesPerBeat (120 * 2)) 2) ∧
      t.rack.echo = some
        { amplitude := 0.5, beatDelay := 1, frameDelay := 11025, activation := 2 } ∧
      s.obey [.setCents 50, .setEcho 0.5 1] = s.obey [.setEcho 0.5 1, .setCents 50] := by
  intro s cs
  obtain ⟨hlast, -, hcomm⟩ := obey_last_of_each s
  obtain ⟨-, -, hbpm, -, -, -, -, -, hlastEcho, hfields⟩ := hlast cs _ rfl
  have hlater : ∀ d ∈ [Command.setTempo 0.5], d.setting ≠ .echo := by simp [setting]
  have hinstalled := hlastEcho [.setTempo 2] (.setEcho 0.5 1) [.setTempo 0.5] rfl rfl hlater
  have hecho := hfields [.setTempo 2] 0.5 1 [.setTempo 0.5] rfl hlater
  have hdelay : (1 * framesPerBeat (lastSet (tempo? 120) 120 [.setTempo 2])).toUInt64.toNat =
      11025 := by decide
  exact ⟨_, rfl, hbpm, (Option.some.inj hinstalled).symm, hecho.trans (by rw [← hdelay]; rfl),
    hcomm [] _ _ [] (by decide) id⟩

/-- The order of a tempo and an echo counts. -/
example :
    let delay (cs : List Command) :=
      ((start 120).obey cs).toOption.bind fun t => t.rack.echo.map Echo.frameDelay
    delay [.setTempo 2, .setEcho 0.5 1] = some 11025 ∧
      delay [.setEcho 0.5 1, .setTempo 2] = some 22050 := by decide

end LineState
end Polyphony
