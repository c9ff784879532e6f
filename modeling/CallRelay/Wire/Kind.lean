/-! # Kinds of message

The first byte of a message names its kind. Bytes that name no kind are read as errors. -/

namespace CallRelay

/-- What a message is about. -/
inductive Kind
  /-- The call hung up, or the peer asks to end it. -/
  | hangup
  /-- The call identifier, the first message of a connection. -/
  | identity
  /-- Silence on the line. -/
  | silence
  /-- A dialled digit. -/
  | dtmf
  /-- Signed linear 16-bit samples, 8 kHz, mono. -/
  | audio
  /-- An error code, or nothing. -/
  | error
  deriving DecidableEq, Repr

namespace Kind

/-- The byte that names a kind. -/
def byte : Kind → UInt8
  | hangup => 0x00
  | identity => 0x01
  | silence => 0x02
  | dtmf => 0x03
  | audio => 0x10
  | error => 0xff

/-- The kind that a byte names; every other byte is an error. -/
def ofByte (b : UInt8) : Kind :=
  if b = 0x00 then hangup
  else if b = 0x01 then identity
  else if b = 0x02 then silence
  else if b = 0x03 then dtmf
  else if b = 0x10 then audio
  else error

/-- Tells the six bytes that name a kind. -/
def isKnown (b : UInt8) : Bool :=
  b == 0x00 || b == 0x01 || b == 0x02 || b == 0x03 || b == 0x10 || b == 0xff

/-- Tells the kinds that a handler receives with their payload. -/
def isSignal : Kind → Bool
  | silence | dtmf => true
  | _ => false

/-- The name of a kind in texts. -/
def text : Kind → String
  | hangup => "hangup"
  | identity => "identity"
  | silence => "silence"
  | dtmf => "dtmf"
  | audio => "audio"
  | error => "error"

@[simp] theorem ofByte_byte (k : Kind) : ofByte k.byte = k := by cases k <;> rfl

theorem isKnown_byte (k : Kind) : isKnown k.byte = true := by cases k <;> rfl

/-- A byte that names a kind is the byte of that kind. -/
theorem byte_ofByte {b : UInt8} (h : isKnown b = true) : (ofByte b).byte = b := by
  simp only [isKnown, Bool.or_eq_true, beq_iff_eq] at h
  rcases h with ((((h | h) | h) | h) | h) | h <;> subst h <;> rfl

end Kind
end CallRelay
