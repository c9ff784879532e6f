import CallRelay.Proofs.Wire.Codec

/-! # Messages written directly

Writing a message directly comes to the same as making it and writing it then, whether it can be written or not. What a
message contains can be told from its bytes: the identity, the error code, and whether its kind byte names its kind. -/

namespace CallRelay

namespace Kind
variable {b : UInt8}

/-- A byte names a kind if it is the byte of the kind that it is read as. -/
theorem isKnown_iff : isKnown b = true ↔ (ofByte b).byte = b := by
  constructor
  · exact byte_ofByte
  · intro h
    rw [← h]
    exact isKnown_byte _

theorem ofByte_ne_error_iff : ofByte b ≠ error ↔ b ∈ [0x00, 0x01, 0x02, 0x03, 0x10] := by
  constructor
  · intro h
    have hb := (ofByte_eq_iff h).mp rfl
    rw [hb]
    cases hk : ofByte b with
    | error => exact absurd hk h
    | _ => decide
  · intro h
    simp only [List.mem_cons, List.not_mem_nil, or_false] at h
    rcases h with rfl | rfl | rfl | rfl | rfl <;> decide

end Kind

namespace Message
variable {m m' : Message} {k : UInt8} {p : Bytes} {e : CodecFault} {id : Identity}

theorem make_eq_error_iff : make k p = .error e ↔ maxPayload < p.length ∧ e = .payloadTooLarge p.length := by
  unfold make
  split
  · next hle => simp [Nat.not_lt_of_le hle]
  · next hgt => simp [Nat.lt_of_not_le hgt, eq_comm]

/-- Different messages have different bytes. -/
theorem encode_inj : m.encode = m'.encode ↔ m = m' := by
  constructor
  · intro h
    have hm := decode_encode_append m []
    rw [h, decode_encode_append] at hm
    injection hm with hm
    exact (Prod.mk.inj hm).1.symm
  · exact congrArg encode

/-- Only one message reads as an identity, and it is the one that is written for it. -/
theorem identity?_eq_some_iff_encode : m.identity? = some id ↔ m.encode = encodeIdentity id := by
  rw [identity?_eq_some_iff, encodeIdentity_eq, encode_inj]
  obtain ⟨k, p, hp⟩ := m
  simp [ofKind, Kind.byte]

theorem errorCode?_eq_none_iff : m.errorCode? = none ↔ m.rawKind ∈ [0x00, 0x01, 0x02, 0x03, 0x10] := by
  rw [← Kind.ofByte_ne_error_iff, errorCode?]
  split
  · next hk => exact iff_of_false nofun fun h => h hk
  · next hk => exact iff_of_true rfl hk

end Message

variable {m : Message}

theorem encodeMessage_eq (k : Kind) (p : Bytes) : encodeMessage k p = (Message.make k.byte p).map Message.encode := by
  unfold encodeMessage encodeHeader Message.make
  split <;> rfl

theorem encodeMessage_identity (id : Identity) : encodeMessage .identity id.bytes = .ok (encodeIdentity id) :=
  encodeMessage_eq_ok_iff.mpr ⟨id.bytes_le, encodeIdentity_eq id⟩

theorem encodeMessage_error (code : ErrorCode) : encodeMessage .error [code.byte] = .ok (encodeError code) := by
  have hle : [code.byte].length ≤ maxPayload := by
    rw [List.length_singleton]
    decide
  refine encodeMessage_eq_ok_iff.mpr ⟨hle, ?_⟩
  rw [Message.encode_eq, Message.payload_ofKind, List.length_singleton]
  rfl

theorem decode_encodeError (code : ErrorCode) (rest : Bytes) :
    ∃ m, Message.decode (encodeError code ++ rest) = .ok (m, (encodeError code).length) ∧ m.errorCode? = some code := by
  obtain ⟨hle, hencode⟩ := encodeMessage_eq_ok_iff.mp (encodeMessage_error code)
  rw [hencode]
  exact ⟨_, Message.decode_encode_append _ rest, rfl⟩

/-- The first bytes are different, and all others are the same. -/
def DifferInFront (a b : Bytes) : Prop := ∃ x y rest, a = x :: rest ∧ b = y :: rest ∧ x ≠ y

theorem encodeMessage_kind (m : Message) :
    encodeMessage m.kind m.payload = .ok (Message.ofKind m.kind m.payload m.payload_le).encode :=
  encodeMessage_eq_ok_iff.mpr ⟨m.payload_le, rfl⟩

/-- Written by its kind, a message keeps its bytes if its kind byte names the kind. -/
theorem encodeMessage_kind_iff : encodeMessage m.kind m.payload = .ok m.encode ↔ Kind.isKnown m.rawKind = true := by
  rw [encodeMessage_kind, Except.ok.injEq, Message.encode_inj, Kind.isKnown_iff]
  obtain ⟨b, p, hp⟩ := m
  simp [Message.ofKind, Message.kind]

theorem encodeMessage_kind_of_unknown (h : Kind.isKnown m.rawKind = false) :
    ∃ w, encodeMessage m.kind m.payload = .ok w ∧ DifferInFront w m.encode := by
  refine ⟨_, encodeMessage_kind m, _, _, _, rfl, rfl, fun hbyte => ?_⟩
  rw [Kind.isKnown_iff.mpr hbyte] at h
  cases h

/-- Messages are written in one way only, and typed contents survive it. -/
theorem written_alike :
    (∀ k p, encodeMessage k p = (Message.make k.byte p).map Message.encode) ∧
    (∀ k p e, (encodeMessage k p = .error e ↔ maxPayload < p.length ∧ e = .payloadTooLarge p.length) ∧
      (Message.make k.byte p = .error e ↔ maxPayload < p.length ∧ e = .payloadTooLarge p.length)) ∧
    ((∀ samples, encodeMessage .audio samples = encodeAudio samples) ∧
      (∀ id : Identity, encodeMessage .identity id.bytes = .ok (encodeIdentity id)) ∧
      (∀ code : ErrorCode, encodeMessage .error [code.byte] = .ok (encodeError code)) ∧
      encodeMessage .hangup [] = .ok encodeHangup) ∧
    (∀ (m : Message) id, m.identity? = some id ↔ m.encode = encodeIdentity id) ∧
    (∀ m : Message, m.errorCode? = none ↔ m.rawKind ∈ [0x00, 0x01, 0x02, 0x03, 0x10]) ∧
    (∀ code rest, ∃ m, Message.decode (encodeError code ++ rest) = .ok (m, (encodeError code).length) ∧
      m.errorCode? = some code) ∧
    ∀ m : Message, (encodeMessage m.kind m.payload = .ok m.encode ↔ Kind.isKnown m.rawKind = true) ∧
      (Kind.isKnown m.rawKind = true ∨ ∃ w, encodeMessage m.kind m.payload = .ok w ∧ DifferInFront w m.encode) := by
  refine ⟨encodeMessage_eq, fun _ _ _ => ⟨encodeMessage_eq_error_iff, Message.make_eq_error_iff⟩,
    ⟨fun _ => rfl, encodeMessage_identity, encodeMessage_error, rfl⟩, fun _ _ => Message.identity?_eq_some_iff_encode,
    fun _ => Message.errorCode?_eq_none_iff, decode_encodeError, fun m => ⟨encodeMessage_kind_iff, ?_⟩⟩
  cases hknown : Kind.isKnown m.rawKind with
  | true => exact Or.inl rfl
  | false => exact Or.inr (encodeMessage_kind_of_unknown hknown)

end CallRelay
