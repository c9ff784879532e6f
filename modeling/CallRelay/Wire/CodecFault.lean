import CallRelay.Fault

/-! # Codec faults

Why a message could not be read or written. -/

namespace CallRelay

/-- A failure to read or write one message. -/
inductive CodecFault
  /-- The stream ended before the three bytes of the header. -/
  | incompleteHeader (got : Nat)
  /-- The stream ended before the announced payload. -/
  | incompleteBody (expected got : Nat)
  /-- The payload does not fit the 16-bit length field. -/
  | payloadTooLarge (length : Nat)
  /-- The stream failed. -/
  | io (fault : Fault)
  deriving DecidableEq, Repr

namespace CodecFault

/-- Tells the faults that more bytes could mend. -/
def isIncomplete : CodecFault → Bool
  | incompleteHeader _ | incompleteBody _ _ => true
  | _ => false

/-- The text of a fault. -/
def message : CodecFault → String
  | incompleteHeader got => s!"incomplete header: expected 3 bytes, got {got}"
  | incompleteBody expected got => s!"incomplete payload: expected {expected} bytes, got {got}"
  | payloadTooLarge length => s!"payload too large: {length} bytes exceeds 65535"
  | io fault => s!"read failed: {fault.text}"

/-- The text of the fault underneath. -/
def cause? : CodecFault → Option String
  | io fault => some fault.text
  | _ => none

end CodecFault
end CallRelay
