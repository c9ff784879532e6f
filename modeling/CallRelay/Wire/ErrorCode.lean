import CallRelay.Text.Hex

/-! # Error codes

The payload byte of an error message: a set of flags, which the relay reports and never interprets. -/

namespace CallRelay

/-- A set of error flags. -/
structure ErrorCode where
  byte : UInt8
  deriving DecidableEq, Repr

namespace ErrorCode

/-- No error is present. -/
def none : ErrorCode := ⟨0x00⟩

/-- The call has hung up. -/
def hangup : ErrorCode := ⟨0x01⟩

/-- An audio frame could not be forwarded. -/
def frameForwarding : ErrorCode := ⟨0x02⟩

/-- Memory could not be allocated. -/
def memory : ErrorCode := ⟨0x04⟩

/-- An error message without a code. -/
def unknown : ErrorCode := ⟨0xff⟩

/-- Tells whether every flag of `flag` is set. -/
def contains (code flag : ErrorCode) : Bool := code.byte &&& flag.byte == flag.byte

/-- The names of the set flags that have one. -/
def flagNames (code : ErrorCode) : List String :=
  ([(hangup, "hangup"), (frameForwarding, "frame-forwarding"), (memory, "memory")].filter
    fun flag => code.contains flag.1).map Prod.snd

/-- The set flags without a name, as one number. -/
def rest (code : ErrorCode) : List String :=
  if code.byte &&& 0xf8 = 0 then [] else [Hex.byteText (code.byte &&& 0xf8)]

/-- The text of a code: its flags between bars, with names for the empty and the full set. -/
def text (code : ErrorCode) : String :=
  if code = none then "none"
  else if code = unknown then "unknown"
  else "|".intercalate (code.flagNames ++ code.rest)

end ErrorCode
end CallRelay
