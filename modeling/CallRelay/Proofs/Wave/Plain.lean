import CallRelay.Proofs.Wave.Samples
import CallRelay.Wave.Plain
import CallRelay.Wave.Recording

/-! # The plain library at work

The plain library writes recordings as canonical files, and it reads back what such a file holds. -/

namespace CallRelay.Wave

/-! ### Chunks -/

section Chunks
variable {found : Option Layout} {l : Layout} {tag body : Bytes}

/-- What is read of a chunk in front of other bytes. -/
structure Chunked (tag body rest b : Bytes) : Prop where
  long : 8 ≤ b.length
  tagged : b.take 4 = tag
  sized : field b 4 4 = body.length
  behind : b.drop 8 = body ++ rest

theorem chunk_chunked (tag rest : Bytes) (htag : tag.length = 4) (hsize : body.length < UInt32.size) :
    Chunked tag body rest (chunk tag body ++ rest) := by
  have hparts : chunk tag body ++ rest = tag ++ (littleBytes 4 body.length ++ (body ++ rest)) := by
    simp only [chunk, List.append_assoc]
  have hdrop : (chunk tag body ++ rest).drop 4 = littleBytes 4 body.length ++ (body ++ rest) := by
    rw [hparts, List.drop_left' htag]
  have hfour := length_littleBytes 4 body.length
  constructor
  · rw [hparts, List.length_append, List.length_append]
    omega
  · rw [hparts, List.take_left' htag]
  · rw [field, hdrop, List.take_left' hfour, littleEndian_littleBytes (by simpa using hsize)]
  · rw [show 8 = 4 + 4 from rfl, ← List.drop_drop, hdrop, List.drop_left' hfour]

theorem chunks_format (hsize : body.length < UInt32.size) {rest : Bytes}
    (hlayout : layout body.length (body ++ rest) = .ok (l, body.length)) :
    chunks found (chunk formatTag body ++ rest) = chunks (some l) rest := by
  have h := chunk_chunked formatTag rest rfl hsize
  rw [chunks]
  simp only [Nat.not_lt.mpr h.long, h.tagged, h.sized, h.behind, hlayout, List.drop_left, ↓reduceDIte, ↓reduceIte]

theorem chunks_data (hsize : body.length < UInt32.size) (rest : Bytes) :
    chunks (some l) (chunk dataTag body ++ rest) = .ok (l, body.length, body ++ rest) := by
  have h := chunk_chunked dataTag rest rfl hsize
  have htag : dataTag ≠ formatTag := by decide
  rw [chunks]
  simp only [Nat.not_lt.mpr h.long, h.tagged, h.sized, h.behind, htag, ↓reduceDIte, ↓reduceIte]

theorem ofBytes_riff (hsize : (waveTag ++ body).length < UInt32.size) : ofBytes (chunk riffTag (waveTag ++ body)) =
    (chunks none body).bind fun (l, size, data) =>
      if size % l.width ≠ 0 then .error .malformed
      else if size / l.width % l.channels ≠ 0 then .error .malformed
      else .ok ⟨l, size, data⟩ := by
  have h := chunk_chunked riffTag [] rfl hsize
  rw [List.append_nil] at h
  have htag : (chunk riffTag (waveTag ++ body)).take 4 = riffTag := h.tagged
  have hbehind : (chunk riffTag (waveTag ++ body)).drop 8 = waveTag ++ body := h.behind.trans (List.append_nil _)
  have hlong : ¬(chunk riffTag (waveTag ++ body)).length < 12 := by
    have hlength := congrArg List.length hbehind
    rw [List.length_drop, List.length_append, show waveTag.length = 4 from rfl] at hlength
    omega
  have hwave : ((chunk riffTag (waveTag ++ body)).drop 8).take 4 = waveTag := by
    rw [hbehind]
    rfl
  have hchunks : (chunk riffTag (waveTag ++ body)).drop 12 = body := by
    rw [show 12 = 8 + 4 from rfl, ← List.drop_drop, hbehind]
    rfl
  rw [ofBytes, if_neg hlong, if_neg (not_not_intro htag), if_neg (not_not_intro hwave), hchunks]

end Chunks

/-! ### Files of one channel -/

section Canonical
open Recording
variable (rest : Bytes)

/-- The layout of recordings. -/
def recorded : Layout := ⟨mono sampleRate, 2⟩

theorem length_formatFields (rate : Nat) : (formatFields rate).length = 16 := rfl

theorem field_formatFields {start width : Nat} (h : start + width ≤ 16) :
    field (formatFields sampleRate ++ rest) start width = field (formatFields sampleRate) start width := by
  have hlength := length_formatFields sampleRate
  rw [field, field, List.drop_append_of_le_length (by omega), List.take_append_of_le_length]
  rw [List.length_drop]
  omega

theorem not_short_formatFields : ¬(formatFields sampleRate ++ rest).length < 16 := by
  rw [List.length_append, length_formatFields]
  omega

theorem baseLayout_formatFields : baseLayout (formatFields sampleRate ++ rest) = .ok (1, recorded) := by
  simp only [baseLayout, not_short_formatFields, field_formatFields, Nat.reduceAdd, Nat.reduceLeDiff, ↓reduceIte]
  rfl

theorem layout_formatFields :
    layout (formatFields sampleRate).length (formatFields sampleRate ++ rest) =
      .ok (recorded, (formatFields sampleRate).length) := by
  simp only [layout, baseLayout_formatFields, length_formatFields, not_short_formatFields, Except.bind, Nat.lt_irrefl,
    ne_eq, not_true_eq_false, false_and, ↓reduceIte]

variable {samples : List Int16}

theorem ofBytes_canonical (h : Fits (2 * samples.length)) :
    ofBytes (canonical sampleRate samples) = .ok ⟨recorded, 2 * samples.length, bytesOf samples⟩ := by
  have hlength := length_bytesOf samples
  unfold Fits at h
  have hchunks : chunks none (chunk formatTag (formatFields sampleRate) ++ chunk dataTag (bytesOf samples)) =
      .ok (recorded, 2 * samples.length, bytesOf samples) := by
    have hdata : chunks (some recorded) (chunk dataTag (bytesOf samples) ++ []) = _ := chunks_data (by omega) []
    rw [List.append_nil, List.append_nil, hlength] at hdata
    rw [chunks_format (by decide) (layout_formatFields _), hdata]
  have hfile : (waveTag ++ (chunk formatTag (formatFields sampleRate) ++ chunk dataTag (bytesOf samples))).length <
      UInt32.size := by
    simp only [chunk, List.length_append, length_littleBytes, length_formatFields, hlength]
    simp only [waveTag, formatTag, dataTag, List.length_cons, List.length_nil]
    omega
  have hwhole : 2 * samples.length % recorded.width = 0 := Nat.mul_mod_right 2 samples.length
  have hmono : 2 * samples.length / recorded.width % recorded.channels = 0 := Nat.mod_one _
  rw [canonical, ofBytes_riff hfile, hchunks]
  simp only [Except.bind, hwhole, hmono, ne_eq, not_true_eq_false, ↓reduceIte]

theorem samples_recorded : (File.mk recorded (2 * samples.length) (bytesOf samples)).samples = .ok samples := by
  have hlength := length_bytesOf samples
  unfold File.samples
  simp only
  split
  · -- Without samples nothing is read, whatever the layout.
    next hnone =>
    have hnil : samples = [] := List.eq_nil_of_length_eq_zero (by omega)
    rw [hnil]
  · rw [if_neg (by decide), if_neg (by omega), ← hlength, List.take_length, samplesOf_bytesOf]

end Canonical

/-! ### Files that are written -/

theorem writeSamples (samples : List Int16) (w : Writer) :
    samples.foldlM plain.writeSample w = .ok { w with reversed := samples.reverse ++ w.reversed } := by
  induction samples generalizing w with
  | nil => rfl
  | cons x samples ih =>
    rw [List.foldlM_cons, List.reverse_cons, List.append_assoc]
    exact ih { w with reversed := x :: w.reversed }

/-- The plain library is as recordings need one to be. -/
theorem plain_canonical : plain.Canonical Recording.sampleRate where
  writes samples _ := by
    refine ⟨⟨Recording.sampleRate, []⟩, _, rfl, writeSamples samples _, ?_⟩
    simp only [plain, List.append_nil, List.reverse_reverse]
  reads samples h := by
    refine ⟨_, ofBytes_canonical h, rfl, ?_⟩
    simp only [plain, samples_recorded]

end CallRelay.Wave
