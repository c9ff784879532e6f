import CallRelay.Proofs.Wave.Samples
import CallRelay.Wave.Recording

/-! # Loading what was saved

A recording is loaded from the file that it was saved as, as far as the sizes in that file have room for it. -/

namespace CallRelay.Recording
open Wave
variable {ρ ω ε : Type} {lib : Library ρ ω ε}

theorem mapM_ok {α : Type} (xs : List α) : (xs.map (.ok : α → Except ε α)).mapM id = .ok xs := by
  induction xs with
  | nil => rfl
  | cons x xs ih =>
    rw [List.map_cons, List.mapM_cons, ih]
    rfl

/-- Samples are loaded from their canonical file. -/
theorem load_canonical (hlib : lib.Canonical sampleRate) {samples : List Int16} (h : Fits (2 * samples.length)) :
    load lib (canonical sampleRate samples) = .ok (bytesOf samples) := by
  obtain ⟨r, hopen, hspec, hsamples⟩ := hlib.reads samples h
  have hmatch : mismatch? (mono sampleRate) = none := rfl
  simp only [load, hopen, hspec, hmatch, hsamples, mapM_ok]
  rfl

/-- The bytes that are saved make up a canonical file. -/
theorem save_canonical (hlib : lib.Canonical sampleRate) {pcm : Bytes} (h : Fits (2 * (samplesOf pcm).length)) :
    save lib pcm = .ok (canonical sampleRate (samplesOf pcm)) := by
  obtain ⟨fresh, full, hcreate, hwrite, hfinalize⟩ := hlib.writes _ h
  rw [save, hcreate]
  change (samplesOf pcm).foldlM lib.writeSample fresh >>= lib.finalize = _
  rw [hwrite]
  exact hfinalize

theorem fits_samplesOf {pcm : Bytes} (h : Fits pcm.length) : Fits (2 * (samplesOf pcm).length) := by
  unfold Fits at h ⊢
  rw [← length_bytesOf, bytesOf_samplesOf]
  split
  · exact h
  · rw [List.length_dropLast]
    omega

/-- The bytes that were saved are loaded, but for an odd one at their end. -/
theorem load_save (hlib : lib.Canonical sampleRate) {pcm : Bytes} (h : Fits pcm.length) :
    ∃ file, save lib pcm = .ok file ∧ load lib file = .ok (if pcm.length % 2 = 0 then pcm else pcm.dropLast) := by
  have hfits := fits_samplesOf h
  refine ⟨_, save_canonical hlib hfits, ?_⟩
  rw [load_canonical hlib hfits, bytesOf_samplesOf]

end CallRelay.Recording
