import CallRelay.Proofs.Transfer
import CallRelay.Proofs.Wire.Codec

/-! # Reading undoes writing

A message is read back from its bytes, whatever follows them, and what is read from a byte string is
written back byte for byte. A string from whose front no message can be read is the beginning of one, so
that reading one message after another stops nowhere but at such a beginning. -/

namespace CallRelay
namespace Message

/-- There is a message for every kind byte and every payload whose length can be written. -/
theorem make_iff {k : UInt8} {p : Bytes} :
    (∃ m, make k p = .ok m ∧ m.rawKind = k ∧ m.payload = p) ↔ p.length ≤ maxPayload := by
  constructor
  · rintro ⟨m, -, -, rfl⟩
    exact m.payload_le
  · intro hp
    exact ⟨⟨k, p, hp⟩, dif_pos hp, rfl, rfl⟩

/-- The length field holds the whole length. -/
theorem toNat_contentLength (m : Message) : m.contentLength.toNat = m.payload.length := by
  have hp := m.payload_le
  rw [contentLength, UInt16.toNat_ofNat']
  unfold maxPayload at hp
  omega

/-- The header of a message can always be written. -/
theorem encode_of_header (m : Message) : (encodeHeader m.rawKind m.payload.length).map (· ++ m.payload) = .ok m.encode := by
  rw [encodeHeader, if_pos m.payload_le]
  rfl

/-- So many bytes hold a message, whatever their header says. -/
theorem decode_of_long {buf : Bytes} (h : headerLength + maxPayload ≤ buf.length) : ∃ m n, decode buf = .ok (m, n) := by
  match buf, h with
  | k :: hi :: lo :: rest, h =>
    have hsize : wordValue hi lo ≤ rest.length := by
      have hlt := wordValue_lt hi lo
      simp only [headerLength, maxPayload, List.length_cons] at h
      omega
    unfold decode
    simp only
    rw [dif_pos (List.length_take_of_le hsize)]
    exact ⟨_, _, rfl⟩

/-- Reading fails exactly on what is cut off before the end of a message. -/
theorem decode_eq_error_iff {buf : Bytes} : (∃ e, decode buf = .error e) ↔ ∃ m : Message, IsCut buf m.encode := by
  constructor
  · rintro ⟨e, he⟩
    -- Behind enough zeros there is a message, and it does not end within `buf`.
    have hlong : headerLength + maxPayload ≤ (buf ++ List.replicate (headerLength + maxPayload) 0).length := by
      rw [List.length_append, List.length_replicate]
      exact Nat.le_add_left _ _
    obtain ⟨m, n, hm⟩ := decode_of_long hlong
    obtain ⟨-, hpre⟩ := decode_eq_ok_iff.mp hm
    have hnot : ¬ m.encode <+: buf := fun hbuf => by
      cases he.symm.trans (decode_eq_ok_iff.mpr ⟨rfl, hbuf⟩)
    rcases List.prefix_or_prefix_of_prefix hpre (List.prefix_append buf _) with hbuf | hbuf
    · exact absurd hbuf hnot
    · exact ⟨m, hbuf, fun heq => hnot (heq ▸ List.prefix_rfl)⟩
  · rintro ⟨m, hcut⟩
    exact decode_of_prefix hcut.1 hcut.2

/-- What is read is written back. -/
theorem encode_of_decode {buf : Bytes} {m : Message} {n : Nat} (h : decode buf = .ok (m, n)) :
    n ≤ buf.length ∧ m.encode = buf.take n ∧ buf.head? = some m.rawKind := by
  obtain ⟨rfl, hpre⟩ := decode_eq_ok_iff.mp h
  refine ⟨hpre.length_le, List.prefix_iff_eq_take.mp hpre, ?_⟩
  obtain ⟨rest, rfl⟩ := hpre
  rfl

/-- Reading on and on gives back the messages written one after another and stops at the beginning of
    another one behind them. -/
theorem decodeAll_encodes_cut {ms : List Message} {tail : Bytes} (h : ∃ m : Message, IsCut tail m.encode) :
    (decodeAll (ms.flatMap encode ++ tail)).1 = ms ∧ (decodeAll (ms.flatMap encode ++ tail)).2.1 = tail := by
  obtain ⟨e, he⟩ := decode_eq_error_iff.mpr h
  rw [decodeAll_encodes_append, decodeAll_of_error he]
  exact ⟨List.append_nil ms, rfl⟩

/-- Writing and reading are inverse to each other on all messages and all byte strings. -/
theorem decode_encode_inverse :
    (∀ k p, (∃ m, make k p = .ok m ∧ m.rawKind = k ∧ m.payload = p) ↔ p.length ≤ maxPayload) ∧
    (∀ m : Message, m.payload.length ≤ maxPayload ∧ m.contentLength.toNat = m.payload.length ∧
      (encodeHeader m.rawKind m.payload.length).map (· ++ m.payload) = .ok m.encode ∧
      ∀ rest, decode (m.encode ++ rest) = .ok (m, headerLength + m.contentLength.toNat)) ∧
    (∀ buf m n, decode buf = .ok (m, n) → n ≤ buf.length ∧ m.encode = buf.take n ∧ buf.head? = some m.rawKind) ∧
    (∀ buf, (∃ e, decode buf = .error e) ↔ ∃ m : Message, IsCut buf m.encode) ∧
    ∀ ms tail, (∃ m : Message, IsCut tail m.encode) →
      (decodeAll (ms.flatMap encode ++ tail)).1 = ms ∧ (decodeAll (ms.flatMap encode ++ tail)).2.1 = tail := by
  refine ⟨fun k p => make_iff, fun m => ?_, fun buf m n => encode_of_decode, fun buf => decode_eq_error_iff,
    fun ms tail => decodeAll_encodes_cut⟩
  refine ⟨m.payload_le, m.toNat_contentLength, m.encode_of_header, fun rest => ?_⟩
  rw [toNat_contentLength, ← length_encode]
  exact decode_encode_append m rest

end Message
end CallRelay
