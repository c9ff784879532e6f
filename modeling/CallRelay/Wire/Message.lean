import CallRelay.Wire.CodecFault
import CallRelay.Wire.ErrorCode
import CallRelay.Wire.Identity
import CallRelay.Wire.Kind

/-! # Messages

A message is a kind byte, a 16-bit payload length and the payload. The kind byte is kept as it was
read, so that a message of an unknown kind is written back unchanged. -/

namespace CallRelay

/-- The bytes of a header. -/
def headerLength : Nat := 3

/-- The longest payload that the length field can tell. -/
def maxPayload : Nat := 65535

/-- One message of the protocol. -/
structure Message where
  rawKind : UInt8
  payload : Bytes
  payload_le : payload.length ≤ maxPayload
  deriving DecidableEq

namespace Message

/-- A message of any kind byte, unless the payload is too long. -/
def make (rawKind : UInt8) (payload : Bytes) : Except CodecFault Message :=
  if h : payload.length ≤ maxPayload then .ok ⟨rawKind, payload, h⟩
  else .error (.payloadTooLarge payload.length)

/-- The kind of a message. -/
def kind (m : Message) : Kind := .ofByte m.rawKind

/-- The payload length as the header writes it. -/
def contentLength (m : Message) : UInt16 := UInt16.ofNat m.payload.length

/-- The code of an error message; an error without a payload has the unknown code. -/
def errorCode? (m : Message) : Option ErrorCode :=
  if m.kind = .error then some (m.payload.head?.elim .unknown ErrorCode.mk) else none

/-- The identity that a message announces, if it is a well-formed identity message. -/
def identity? (m : Message) : Option Identity :=
  if m.kind = .identity then Identity.ofBytes? m.payload else none

/-- The bytes of a message. -/
def encode (m : Message) : Bytes := m.rawKind :: (wordBytes m.payload.length ++ m.payload)

/-- Reads the message at the front of `buf` and tells how many bytes it takes. -/
def decode : Bytes → Except CodecFault (Message × Nat)
  | rawKind :: hi :: lo :: rest =>
    let size := wordValue hi lo
    let body := rest.take size
    if h : body.length = size then
      .ok (⟨rawKind, body, by have := wordValue_lt hi lo; unfold maxPayload; omega⟩, headerLength + size)
    else .error (.incompleteBody size body.length)
  | short => .error (.incompleteHeader short.length)

theorem length_encode (m : Message) : m.encode.length = headerLength + m.payload.length := by
  simp [encode, wordBytes, headerLength]
  omega

/-- A message that was read takes a header and its payload, and no more than there is. -/
theorem used_of_decode {buf : Bytes} {m : Message} {n : Nat} (h : decode buf = .ok (m, n)) :
    n = headerLength + m.payload.length ∧ n ≤ buf.length := by
  unfold decode at h
  split at h
  · next k hi lo rest =>
    simp only at h
    split at h <;> cases h
    next hsize =>
    have hle : wordValue hi lo ≤ rest.length := by
      rw [List.length_take] at hsize
      omega
    simp only [headerLength, List.length_take, List.length_cons]
    omega
  · cases h

/-- Reading fails only for want of bytes. -/
theorem isIncomplete_of_decode {buf : Bytes} {e : CodecFault} (h : decode buf = .error e) :
    e.isIncomplete = true := by
  unfold decode at h
  split at h
  · simp only at h
    split at h <;> cases h
    rfl
  · cases h
    rfl

/-- The messages at the front of `buf`, what is left behind them, and why it is no message. -/
def decodeAll (buf : Bytes) : List Message × Bytes × CodecFault :=
  match _found : decode buf with
  | .error e => ([], buf, e)
  | .ok (m, n) =>
    let later := decodeAll (buf.drop n)
    (m :: later.1, later.2)
termination_by buf.length
decreasing_by
  have := used_of_decode _found
  simp only [List.length_drop, headerLength] at *
  omega

end Message
end CallRelay
