import CallRelay.Wire.Message

/-! # Writing messages directly

The bytes of the messages that a relay sends, without a message value in between. -/

namespace CallRelay

/-- The header of a message, unless the payload is too long. -/
def encodeHeader (rawKind : UInt8) (length : Nat) : Except CodecFault Bytes :=
  if length ≤ maxPayload then .ok (rawKind :: wordBytes length) else .error (.payloadTooLarge length)

/-- A message of any kind. -/
def encodeMessage (k : Kind) (payload : Bytes) : Except CodecFault Bytes :=
  (encodeHeader k.byte payload.length).map (· ++ payload)

/-- An audio message. -/
def encodeAudio (samples : Bytes) : Except CodecFault Bytes := encodeMessage .audio samples

/-- A hangup: a header alone. -/
def encodeHangup : Bytes := [Kind.hangup.byte, 0x00, 0x00]

/-- An identity message. -/
def encodeIdentity (id : Identity) : Bytes := Kind.identity.byte :: 0x00 :: 0x10 :: id.bytes

/-- An error message with its code. -/
def encodeError (code : ErrorCode) : Bytes := [Kind.error.byte, 0x00, 0x01, code.byte]

end CallRelay
