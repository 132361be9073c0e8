import Polyphony.Proofs.Line.Outcome

/-! # Reports of progress

Which percentages a line reports depends on the number of its events alone: an event reports if a
tenth of them ends with it. A line that renders reports up to 100, in steps of ten if it has at
least ten events and once for each event if it has at most ten. A line that fails reports what
the events before the failure do, and no guard of the machine ever stops either.
-/
namespace Polyphony.Line
open LineState

def report (name : String) (percent : Nat) : LogEntry := .debug s!"{name}: {percent}% rendered"

/-- The percentages that the first events of `n` report. An event reports if it brings about a
new tenth. -/
def percents (n : Nat) : Nat → List Nat
  | 0 => []
  | i + 1 =>
    if i * 10 / n < (i + 1) * 10 / n then percents n i ++ [(i + 1) * 10 / n * 10]
    else percents n i

/-- The reports that the first `i` events of a line make. -/
def logAfter (l : Line) (i : Nat) : Log :=
  (renderFrom l.name l.events.length (l.events.take i) 0 (.start l.baseTempo) ⟨0, []⟩).2

theorem report_inj {name : String} {p q : Nat} : report name p = report name q ↔ p = q := by
  simp [report, LogEntry.debug]

section

variable {n i j : Nat}

theorem tenths_mono (n : Nat) (h : i ≤ j) : i * 10 / n ≤ j * 10 / n :=
  Nat.div_le_div_right (Nat.mul_le_mul_right 10 h)

/-- The latest percentage is that of the tenths done, so no tenth is lost in between. -/
theorem percents_getLastD (n i : Nat) : (percents n i).getLastD 0 = i * 10 / n * 10 := by
  induction i with
  | zero => simp [percents]
  | succ i ih =>
    have hmono := tenths_mono n (Nat.le_add_right i 1)
    rw [percents]
    split
    · rw [List.getLastD_concat]
    · rw [ih]
      omega

theorem percents_le {p : Nat} (h : p ∈ percents n i) : p ≤ i * 10 / n * 10 := by
  induction i with
  | zero => cases h
  | succ i ih =>
    have hmono := tenths_mono n (Nat.le_add_right i 1)
    rw [percents] at h
    split at h
    · rcases List.mem_append.mp h with hearlier | hnew
      · have := ih hearlier
        omega
      · rw [List.mem_singleton.mp hnew]
    · have := ih h
      omega

theorem percents_pairwise (n i : Nat) : (percents n i).Pairwise (· < ·) := by
  induction i with
  | zero => exact .nil
  | succ i ih =>
    rw [percents]
    split
    · refine List.pairwise_append.mpr ⟨ih, List.pairwise_singleton _ _, fun p hp q hq => ?_⟩
      have hle := percents_le hp
      rw [List.mem_singleton.mp hq]
      omega
    · exact ih

theorem percents_dvd {p : Nat} (h : p ∈ percents n i) : 10 ∣ p := by
  induction i with
  | zero => cases h
  | succ i ih =>
    rw [percents] at h
    split at h
    · rcases List.mem_append.mp h with hearlier | hnew
      · exact ih hearlier
      · rw [List.mem_singleton.mp hnew]
        exact Nat.dvd_mul_left 10 _
    · exact ih h

theorem percents_isPrefix (n : Nat) (h : i ≤ j) : percents n i <+: percents n j := by
  induction j, h using Nat.le_induction with
  | base => exact List.prefix_rfl
  | succ j _ ih =>
    rw [percents]
    split
    · exact ih.trans (List.prefix_append _ _)
    · exact ih

/-- With at most ten events each of them brings about a new tenth. -/
theorem percents_length (hn : 0 < n) (hfew : n ≤ 10) (i : Nat) : (percents n i).length = i := by
  induction i with
  | zero => rfl
  | succ i ih =>
    have hnext : i * 10 / n + 1 ≤ (i + 1) * 10 / n := by
      rw [← Nat.add_div_right _ hn]
      exact Nat.div_le_div_right (by omega)
    rw [percents, if_pos (by omega), List.length_append, ih]
    rfl

/-- With at least ten events none of them brings about two tenths. -/
theorem percents_eq (hmany : 10 ≤ n) (i : Nat) :
    percents n i = (List.range (i * 10 / n)).map fun k => (k + 1) * 10 := by
  induction i with
  | zero => simp [percents]
  | succ i ih =>
    have hmono := tenths_mono n (Nat.le_add_right i 1)
    have hnext : (i + 1) * 10 / n ≤ i * 10 / n + 1 := by
      rw [← Nat.add_div_right _ (by omega)]
      exact Nat.div_le_div_right (by omega)
    rw [percents, ih]
    split
    · have hone : (i + 1) * 10 / n = i * 10 / n + 1 := by omega
      rw [hone, List.range_succ, List.map_append]
      rfl
    · have hsame : (i + 1) * 10 / n = i * 10 / n := by omega
      rw [hsame]

theorem tenths_all (hn : 0 < n) : n * 10 / n = 10 := Nat.mul_div_cancel_left 10 hn

theorem tenths_lt (h : i < n) : i * 10 / n < 10 := by
  rw [Nat.div_lt_iff_lt_mul (by omega)]
  omega

theorem percents_all (hmany : 10 ≤ n) :
    percents n n = [10, 20, 30, 40, 50, 60, 70, 80, 90, 100] := by
  rw [percents_eq hmany, tenths_all (by omega)]
  rfl

theorem percents_all_length (hn : 0 < n) : (percents n n).length = min n 10 := by
  by_cases hfew : n ≤ 10
  · rw [percents_length hn hfew, Nat.min_eq_left hfew]
  · rw [percents_all (by omega), Nat.min_eq_right (by omega)]
    rfl

theorem percents_all_getLast? (hn : 0 < n) : (percents n n).getLast? = some 100 := by
  have hlast := percents_getLastD n n
  rw [tenths_all hn, List.getLastD_eq_getLast?] at hlast
  cases h : (percents n n).getLast? with
  | none =>
    rw [h] at hlast
    cases hlast
  | some p =>
    rw [h] at hlast
    exact congrArg some hlast

end

section

variable {name : String} {n i : Nat} {events : List Event} {s t : LineState}

def progressAt (name : String) (n i : Nat) : Progress :=
  ⟨i * 10 / n, (percents n i).map (report name)⟩

theorem advance_progressAt (name : String) (n i : Nat) :
    (progressAt name n i).advance name n (i + 1) = progressAt name n (i + 1) := by
  have hmono := tenths_mono n (Nat.le_add_right i 1)
  rw [Progress.advance, progressAt, progressAt, percents]
  by_cases hnew : i * 10 / n < (i + 1) * 10 / n
  · simp only [if_pos hnew, List.map_append]
    rfl
  · have hsame : (i + 1) * 10 / n = i * 10 / n := by omega
    simp only [if_neg hnew]
    rw [hsame]

/-- What a walk reports as long as no event fails. -/
theorem renderFrom_take_log (name : String) (n i : Nat) {k : Nat} (hk : k ≤ events.length)
    (h : ∀ j < k, ∀ cause, ¬ s.FailsAt events j cause) :
    (renderFrom name n (events.take k) i s (progressAt name n i)).2 =
      (percents n (i + k)).map (report name) := by
  induction k generalizing events i s with
  | zero => rfl
  | succ k ih =>
    cases events with
    | nil => cases hk
    | cons event events =>
      rw [List.take_succ_cons, renderFrom]
      cases hstep : s.step event with
      | error cause => exact absurd (failsAt_zero.mpr hstep) (h 0 (Nat.succ_pos k) cause)
      | ok t =>
        have hrest : ∀ j < k, ∀ cause, ¬ t.FailsAt events j cause := fun j hj cause => by
          rw [← failsAt_succ hstep]
          exact h (j + 1) (by omega) cause
        simp only [advance_progressAt]
        rw [ih (i + 1) (Nat.le_of_succ_le_succ hk) hrest, Nat.add_assoc, Nat.add_comm 1]

/-- A walk that fails has reported what the events before the failure report. -/
theorem renderFrom_error_log {p : Progress} {e : RenderError}
    (h : (renderFrom name n events i s p).1 = .error e) :
    (renderFrom name n events i s p).2 =
      (renderFrom name n (events.take (e.event - i)) i s p).2 := by
  induction events generalizing i s p with
  | nil => cases h
  | cons event events ih =>
    obtain ⟨k, cause, hfails, -, rfl⟩ := renderFrom_eq_error_iff.mp h
    rw [Nat.add_sub_cancel_left]
    rw [renderFrom] at h ⊢
    cases hstep : s.step event with
    | error cause' =>
      rw [hstep] at h
      have hfirst : k = 0 := by
        have hindex := congrArg RenderError.event (Except.error.inj h)
        simpa using hindex.symm
      rw [hfirst]
      rfl
    | ok t =>
      rw [hstep] at h
      cases k with
      | zero =>
        rw [failsAt_zero, hstep] at hfails
        cases hfails
      | succ k =>
        have hlater := ih h
        have hsub : i + (k + 1) - (i + 1) = k := by omega
        rw [hsub] at hlater
        rw [List.take_succ_cons, renderFrom, hstep]
        exact hlater

end

section

variable (l : Line)

/-- The reports up to an event do not depend on what the events are, as long as they succeed. -/
theorem logAfter_eq {i : Nat} (hi : i ≤ l.events.length)
    (h : ∀ j < i, ∀ cause, ¬ l.FailsAt j cause) :
    l.logAfter i = (percents l.events.length i).map (report l.name) := by
  simp only [← start_failsAt] at h
  have hlog := renderFrom_take_log l.name l.events.length 0 hi h
  have hstart : progressAt l.name l.events.length 0 = ⟨0, []⟩ := by simp [progressAt, percents]
  rwa [hstart, Nat.zero_add] at hlog

theorem render_log_of_ok {b : Buffer} (h : l.render.1 = .ok b) {i : Nat}
    (hi : i ≤ l.events.length) :
    l.logAfter i = (percents l.events.length i).map (report l.name) :=
  l.logAfter_eq hi fun j _ => l.render_eq_ok_iff.mp ⟨b, h⟩ j

theorem render_log_of_error {e : RenderError} (h : l.render.1 = .error e) {i : Nat}
    (hi : i ≤ e.event) :
    l.logAfter i = (percents l.events.length i).map (report l.name) := by
  obtain ⟨-, hfails, hfirst⟩ := l.render_eq_error_iff.mp h
  have hlength := hfails.lt_length
  exact l.logAfter_eq (by omega) fun j hj => hfirst j (by omega)

theorem render_log_eq_logAfter_length : l.render.2 = l.logAfter l.events.length := by
  rw [logAfter, List.take_length]
  rfl

theorem render_log_eq_logAfter_event {e : RenderError} (h : l.render.1 = .error e) :
    l.render.2 = l.logAfter e.event :=
  renderFrom_error_log h

/-- Reports of progress are complete, increasing and bounded. The percentages that the events of a
line may report are as many as the events but at most ten, and rise in steps of ten or more to
100. Behind each event the latest one is that of the tenths done. A line that renders reports all
of them, and one that fails those of the events before the failure. No line divides by zero, and
none with less than a tenth of the 64 bits of events leaves them. -/
theorem render_reports (hfits : 10 * l.events.length < Number.countBound) :
    let n := l.events.length
    l.render? = some l.render ∧
    (n = 0 → l.render.2 = []) ∧
    (0 < n → (percents n n).length = min n 10 ∧ (percents n n).Pairwise (· < ·) ∧
      (∀ p ∈ percents n n, 10 ∣ p) ∧ (percents n n).getLast? = some 100 ∧
      (10 ≤ n → percents n n = [10, 20, 30, 40, 50, 60, 70, 80, 90, 100]) ∧
      ∀ i ≤ n, percents n i <+: percents n n ∧
        (percents n i).getLastD 0 = 10 * (10 * i / n)) ∧
    (∀ b, l.render.1 = .ok b → l.render.2 = (percents n n).map (report l.name) ∧
      ∀ i ≤ n, l.logAfter i = (percents n i).map (report l.name)) ∧
    ∀ e, l.render.1 = .error e → e.event < n ∧
      l.render.2 = (percents n e.event).map (report l.name) ∧
      (∀ i ≤ e.event, l.logAfter i = (percents n i).map (report l.name)) ∧
      report l.name 100 ∉ l.render.2 := by
  intro n
  refine ⟨l.render?_eq hfits, fun hn => ?_, fun hn => ?_, fun b hb => ?_, fun e he => ?_⟩
  · rw [render, List.eq_nil_of_length_eq_zero hn]
    rfl
  · refine ⟨percents_all_length hn, percents_pairwise n n, fun p => percents_dvd,
      percents_all_getLast? hn, percents_all, fun i hi => ⟨percents_isPrefix n hi, ?_⟩⟩
    rw [percents_getLastD, Nat.mul_comm i, Nat.mul_comm 10 (10 * i / n)]
  · refine ⟨?_, fun i hi => l.render_log_of_ok hb hi⟩
    rw [l.render_log_eq_logAfter_length]
    exact l.render_log_of_ok hb (Nat.le_refl _)
  · obtain ⟨-, hfails, -⟩ := l.render_eq_error_iff.mp he
    have hlog : l.render.2 = (percents n e.event).map (report l.name) := by
      rw [l.render_log_eq_logAfter_event he]
      exact l.render_log_of_error he (Nat.le_refl _)
    refine ⟨hfails.lt_length, hlog, fun i hi => l.render_log_of_error he hi, ?_⟩
    rw [hlog]
    intro hmem
    obtain ⟨p, hp, hreport⟩ := List.mem_map.mp hmem
    have hle := percents_le hp
    have hlt : e.event * 10 / n < 10 := tenths_lt hfails.lt_length
    rw [report_inj.mp hreport] at hle
    omega

end

/-- Three events report 30, 60 and 100. Four of which the third fails stop at the half. -/
theorem render_reports_thirds :
    let l : Line := ⟨"bass", 120,
      [.command (.setDynamics 0.5), .command (.setCents 50), .command (.setTempo 2)]⟩
    let stopped : Line := ⟨"bass", 120, [.command (.setDynamics 0.5), .command (.setCents 50),
      .command (.setInstrument "kazoo"), .command (.setTempo 2)]⟩
    l.render? = some l.render ∧ l.render.1 = .ok #[] ∧
      l.render.2 = [report "bass" 30, report "bass" 60, report "bass" 100] ∧
      (percents 3 2).getLastD 0 = 10 * (10 * 2 / 3) ∧
      stopped.render.1 = .error ⟨"bass", 2, .unknownInstrument "kazoo"⟩ ∧
      stopped.render.2 = [report "bass" 20, report "bass" 50] ∧
      report "bass" 100 ∉ stopped.render.2 := by
  intro l stopped
  have hl : l.render.1 = .ok #[] := rfl
  have hstopped : stopped.render.1 = .error ⟨"bass", 2, .unknownInstrument "kazoo"⟩ := rfl
  obtain ⟨hguard, -, hpercents, hok, -⟩ := render_reports l (by decide)
  obtain ⟨-, -, -, -, -, hlatest⟩ := hpercents (by decide)
  obtain ⟨-, -, -, -, herror⟩ := render_reports stopped (by decide)
  obtain ⟨-, hlog, -, hnever⟩ := herror _ hstopped
  have hthirds : percents 3 3 = [30, 60, 100] := by decide
  have hhalf : percents 4 2 = [20, 50] := by decide
  have hall : l.render.2 = (percents 3 3).map (report "bass") := (hok _ hl).1
  have hearlier : stopped.render.2 = (percents 4 2).map (report "bass") := hlog
  rw [hthirds] at hall
  rw [hhalf] at hearlier
  exact ⟨hguard, hl, hall, (hlatest 2 (by decide)).2, hstopped, hearlier, hnever⟩

end Polyphony.Line
