import Mathlib
import Polyphony.Wave

/-! # Writing wave files

What a writer of wave files documents is enough to tell the file that it leaves, whatever it keeps
while the file is open: the container of the samples, as long as its sizes fit into 32 bits.
-/
namespace Polyphony.Wave

/-- Samples of 16 bits in at most two channels, which have the plain format chunk of PCM. -/
structure Spec.Plain (s : Spec) : Prop where
  format : s.format = .int
  bits : s.bits = 16
  channels : s.channels = 1 ∨ s.channels = 2
  byteRate : s.rate * (s.channels * (s.bits / 8)) < 2 ^ 32

theorem spec_plain : spec.Plain := ⟨rfl, rfl, .inl rfl, by decide⟩

namespace Writer

variable {ε : Type} {w : Writer ε} {s : Spec}

/-- The samples that a writer has taken since it was opened for a format. -/
inductive Takes (w : Writer ε) (s : Spec) : List Int16 → w.State → Prop
  | new {t : w.State} : w.new s = .ok t → Takes w s [] t
  | write {samples : List Int16} {sample : Int16} {t u : w.State} :
    Takes w s samples t → w.write t sample = .ok u → Takes w s (samples ++ [sample]) u

/-- A writer opens files of plain PCM and takes samples as long as the sizes of the file can count
them. When it is closed behind whole frames, it leaves their container. -/
structure Documented (w : Writer ε) : Prop where
  new (s : Spec) : s.Plain → ∃ t, w.new s = .ok t
  write {s : Spec} {samples : List Int16} {t : w.State} (sample : Int16) :
    s.Plain → w.Takes s samples t → 36 + 2 * (samples.length + 1) < 2 ^ 32 →
      ∃ u, w.write t sample = .ok u
  finalize {s : Spec} {samples : List Int16} {t : w.State} :
    s.Plain → w.Takes s samples t → 36 + 2 * samples.length < 2 ^ 32 →
      s.channels ∣ samples.length → w.finalize t = .ok (container s samples)

namespace Documented

/-- Samples that are written behind others are taken all. -/
theorem foldlM_write (hw : w.Documented) (hs : s.Plain) {taken samples : List Int16}
    {t : w.State} (ht : w.Takes s taken t) (h : 36 + 2 * (taken ++ samples).length < 2 ^ 32) :
    ∃ u, samples.foldlM w.write t = .ok u ∧ w.Takes s (taken ++ samples) u := by
  induction samples generalizing taken t with
  | nil => exact ⟨t, rfl, by rwa [List.append_nil]⟩
  | cons sample samples ih =>
    rw [List.append_cons] at h ⊢
    have hroom : 36 + 2 * (taken.length + 1) < 2 ^ 32 := by
      simp only [List.length_append, List.length_singleton] at h
      omega
    obtain ⟨u, hu⟩ := hw.write sample hs ht hroom
    rw [List.foldlM_cons, hu]
    exact ih (.write ht hu) h

theorem encodeBy_eq (hw : w.Documented) {samples : List Int16}
    (h : 36 + 2 * samples.length < 2 ^ 32) :
    encodeBy w samples = .ok (container spec samples) := by
  obtain ⟨t, ht⟩ := hw.new spec spec_plain
  obtain ⟨u, hu, htakes⟩ := hw.foldlM_write spec_plain (.new ht) (by rwa [List.nil_append])
  rw [List.nil_append] at htakes
  rw [encodeBy, ht]
  change (samples.foldlM w.write t >>= w.finalize) = _
  rw [hu]
  exact hw.finalize spec_plain htakes h (one_dvd _)

end Documented

theorem memory_takes {samples : List Int16} {t : memory.State} (h : memory.Takes s samples t) :
    t = (s, samples.toArray) := by
  induction h with
  | new h => exact (Except.ok.inj h).symm
  | write _ h ih =>
    rw [ih] at h
    rw [← Except.ok.inj h, List.push_toArray]

theorem memory_documented : memory.Documented where
  new s _ := ⟨(s, #[]), rfl⟩
  write sample _ _ _ := ⟨_, rfl⟩
  finalize _ htakes _ _ := by rw [memory_takes htakes]; rfl

end Writer

end Polyphony.Wave
