import CallRelay.Wire.Encoding

/-! # Messages there and back

Reading the front of a byte string gives a message exactly when the bytes of that message stand there,
whatever follows them. Hence what is read from a prefix stays read when more bytes arrive, and cutting a
string anywhere cuts its list of messages: those of the first part, then those of what was left of it
and the second. -/

namespace CallRelay
namespace Message

/-! ### One message -/

theorem encode_eq (m : Message) : m.encode = m.rawKind :: UInt8.ofNat (m.payload.length / 256) ::
    UInt8.ofNat m.payload.length :: m.payload := rfl

theorem encode_ne_nil (m : Message) : m.encode ≠ [] := by
  rw [encode_eq]
  exact List.cons_ne_nil _ _

theorem decode_encode_append (m : Message) (rest : Bytes) :
    decode (m.encode ++ rest) = .ok (m, m.encode.length) := by
  obtain ⟨k, p, hp⟩ := m
  have hsize : wordValue (UInt8.ofNat (p.length / 256)) (UInt8.ofNat p.length) = p.length :=
    wordValue_wordBytes (Nat.lt_succ_of_le hp)
  have hbody : (p ++ rest).take p.length = p := List.take_left
  rw [length_encode]
  simp only [encode_eq, List.cons_append, decode, hsize, hbody, dite_true]

/-- Reading succeeds exactly on the bytes of a message and whatever follows them. -/
theorem decode_eq_ok_iff {buf : Bytes} {m : Message} {n : Nat} :
    decode buf = .ok (m, n) ↔ n = m.encode.length ∧ m.encode <+: buf := by
  constructor
  · intro h
    refine ⟨(used_of_decode h).1.trans (length_encode m).symm, ?_⟩
    unfold decode at h
    split at h
    · next k hi lo rest =>
      simp only at h
      split at h <;> cases h
      next hsize =>
      rw [encode, hsize, wordBytes_wordValue]
      exact List.prefix_append_right_inj [k, hi, lo] |>.mpr (List.take_prefix _ rest)
    · cases h
  · rintro ⟨rfl, rest, rfl⟩
    exact decode_encode_append m rest

theorem decode_append {a : Bytes} {m : Message} {n : Nat} (h : decode a = .ok (m, n)) (b : Bytes) :
    decode (a ++ b) = .ok (m, n) := by
  obtain ⟨hn, hm⟩ := decode_eq_ok_iff.mp h
  exact decode_eq_ok_iff.mpr ⟨hn, hm.trans (List.prefix_append a b)⟩

theorem eq_encode_append_of_decode {buf : Bytes} {m : Message} {n : Nat} (h : decode buf = .ok (m, n)) :
    buf = m.encode ++ buf.drop n := by
  obtain ⟨rfl, rest, rfl⟩ := decode_eq_ok_iff.mp h
  rw [List.drop_left]

/-- A message cut short is no message. -/
theorem decode_of_prefix {buf : Bytes} {m : Message} (h : buf <+: m.encode) (hne : buf ≠ m.encode) :
    ∃ e, decode buf = .error e := by
  cases hd : decode buf with
  | error e => exact ⟨e, rfl⟩
  | ok p =>
    exfalso
    obtain ⟨m', n⟩ := p
    obtain ⟨rest, hrest⟩ := h
    have hm := decode_append hd rest
    have hself := decode_encode_append m []
    rw [hrest] at hm
    rw [List.append_nil, hm] at hself
    obtain ⟨-, rfl⟩ := Prod.mk.inj (Except.ok.inj hself)
    have hle := (used_of_decode hd).2
    have hlen := congrArg List.length hrest
    rw [List.length_append] at hlen
    have hnil : rest = [] := List.eq_nil_of_length_eq_zero (by omega)
    rw [hnil, List.append_nil] at hrest
    exact hne hrest

theorem decode_nil : decode [] = .error (.incompleteHeader 0) := rfl

/-! ### All messages of a string -/

theorem decodeAll_of_error {buf : Bytes} {e : CodecFault} (h : decode buf = .error e) : decodeAll buf = ([], buf, e) := by
  rw [decodeAll]
  split
  · next e' he =>
    rw [h] at he
    cases he
    rfl
  · next he =>
    rw [h] at he
    cases he

theorem decodeAll_of_ok {buf : Bytes} {m : Message} {n : Nat} (h : decode buf = .ok (m, n)) :
    decodeAll buf = (m :: (decodeAll (buf.drop n)).1, (decodeAll (buf.drop n)).2) := by
  rw [decodeAll]
  split
  · next he =>
    rw [h] at he
    cases he
  · next he =>
    rw [h] at he
    cases he
    rfl

theorem decodeAll_encode_append (m : Message) (rest : Bytes) :
    decodeAll (m.encode ++ rest) = (m :: (decodeAll rest).1, (decodeAll rest).2) := by
  rw [decodeAll_of_ok (decode_encode_append m rest), List.drop_left]

/-- The bytes of messages one after another are read as these messages. -/
theorem decodeAll_encodes_append (ms : List Message) (rest : Bytes) :
    decodeAll (ms.flatMap encode ++ rest) = (ms ++ (decodeAll rest).1, (decodeAll rest).2) := by
  induction ms with
  | nil => rfl
  | cons m ms ih => rw [List.flatMap_cons, List.append_assoc, decodeAll_encode_append, ih, List.cons_append]

theorem encodes_append_left (buf : Bytes) : (decodeAll buf).1.flatMap encode ++ (decodeAll buf).2.1 = buf := by
  fun_induction decodeAll buf with
  | case1 buf e h => rfl
  | case2 buf m n h later ih =>
    rw [List.flatMap_cons, List.append_assoc, ih]
    exact (eq_encode_append_of_decode h).symm

theorem decode_left (buf : Bytes) : decode (decodeAll buf).2.1 = .error (decodeAll buf).2.2 := by
  fun_induction decodeAll buf with
  | case1 buf e h => exact h
  | case2 buf m n h later ih => exact ih

theorem decodeAll_append (a b : Bytes) :
    decodeAll (a ++ b) = ((decodeAll a).1 ++ (decodeAll ((decodeAll a).2.1 ++ b)).1,
      (decodeAll ((decodeAll a).2.1 ++ b)).2) := by
  conv => lhs; rw [← encodes_append_left a, List.append_assoc]
  exact decodeAll_encodes_append _ _

end Message

/-! ### The contents of a message -/

/-- All kinds but one are named by a single byte. -/
theorem Kind.ofByte_eq_iff {b : UInt8} {k : Kind} (hk : k ≠ error) : ofByte b = k ↔ b = k.byte := by
  constructor
  · rintro rfl
    unfold ofByte at hk ⊢
    grind [byte]
  · rintro rfl
    exact ofByte_byte k

/-- An identity message is one of the kind byte 1 with the sixteen bytes of an identity. -/
theorem Message.identity?_eq_some_iff {m : Message} {id : Identity} :
    m.identity? = some id ↔ m.rawKind = 0x01 ∧ m.payload = id.bytes := by
  have hkind : m.kind = .identity ↔ m.rawKind = 0x01 := Kind.ofByte_eq_iff nofun
  unfold identity?
  split
  · next hk => rw [Identity.ofBytes?_eq_some_iff, and_iff_right (hkind.mp hk)]
  · next hk =>
    constructor
    · intro h
      cases h
    · rintro ⟨hraw, -⟩
      exact absurd (hkind.mpr hraw) hk

/-! ### The messages that a relay sends -/

def Message.ofKind (k : Kind) (payload : Bytes) (h : payload.length ≤ maxPayload) : Message := ⟨k.byte, payload, h⟩

@[simp] theorem Message.kind_ofKind (k : Kind) (p : Bytes) (h : p.length ≤ maxPayload) : (ofKind k p h).kind = k :=
  Kind.ofByte_byte k

@[simp] theorem Message.payload_ofKind (k : Kind) (p : Bytes) (h : p.length ≤ maxPayload) : (ofKind k p h).payload = p :=
  rfl

/-- A message is written directly as its value would be. -/
theorem encodeMessage_eq_ok_iff {k : Kind} {p w : Bytes} :
    encodeMessage k p = .ok w ↔ ∃ h, w = (Message.ofKind k p h).encode := by
  unfold encodeMessage encodeHeader
  split
  · next hp =>
    simp only [Except.map, Except.ok.injEq]
    exact ⟨fun h => ⟨hp, h.symm⟩, fun ⟨_, h⟩ => h.symm⟩
  · next hp =>
    simp only [Except.map, reduceCtorEq, false_iff]
    exact fun ⟨h, _⟩ => hp h

/-- What is too long for a message is the only thing that cannot be written. -/
theorem encodeMessage_eq_error_iff {k : Kind} {p : Bytes} {e : CodecFault} :
    encodeMessage k p = .error e ↔ maxPayload < p.length ∧ e = .payloadTooLarge p.length := by
  unfold encodeMessage encodeHeader
  split
  · next hle => exact iff_of_false nofun fun h => Nat.not_lt_of_le hle h.1
  · next hgt =>
    simp only [Except.map, Except.error.injEq]
    exact ⟨fun h => ⟨Nat.lt_of_not_le hgt, h.symm⟩, fun h => h.2.symm⟩

theorem Message.of_mapM_encodeAudio {cs frames : List Bytes} (h : cs.mapM encodeAudio = .ok frames) :
    ∃ ms : List Message, ms.map payload = cs ∧ (∀ m ∈ ms, m.kind = .audio) ∧ frames.flatten = ms.flatMap encode := by
  induction cs generalizing frames with
  | nil =>
    cases h
    exact ⟨[], rfl, nofun, rfl⟩
  | cons c cs ih =>
    rw [List.mapM_cons] at h
    cases hc : encodeAudio c with
    | error e => simp [hc, bind, Except.bind] at h
    | ok w =>
      cases hcs : cs.mapM encodeAudio with
      | error e => simp [hc, hcs, bind, Except.bind] at h
      | ok ws =>
        simp only [hc, hcs, bind, Except.bind, pure, Except.pure, Except.ok.injEq] at h
        subst h
        obtain ⟨ms, hms, haudio, hflat⟩ := ih hcs
        obtain ⟨hle, rfl⟩ := encodeMessage_eq_ok_iff.mp hc
        refine ⟨.ofKind .audio c hle :: ms, ?_, List.forall_mem_cons.mpr ⟨kind_ofKind _ _ _, haudio⟩, ?_⟩
        · rw [List.map_cons, payload_ofKind, hms]
        · rw [List.flatten_cons, List.flatMap_cons, hflat]

theorem encodeAudio_ne_nil {c w : Bytes} (h : encodeAudio c = .ok w) : w ≠ [] := by
  obtain ⟨hc, rfl⟩ := encodeMessage_eq_ok_iff.mp h
  exact Message.encode_ne_nil _

theorem encodeHangup_eq : encodeHangup = (Message.ofKind .hangup [] (Nat.zero_le _)).encode := rfl

theorem Identity.bytes_le (id : Identity) : id.bytes.length ≤ maxPayload := by
  rw [id.length_eq]
  decide

theorem encodeIdentity_eq (id : Identity) :
    encodeIdentity id = (Message.ofKind .identity id.bytes id.bytes_le).encode := by
  rw [Message.encode_eq, Message.payload_ofKind, id.length_eq]
  rfl

end CallRelay
