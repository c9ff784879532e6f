import CallRelay.Clock.Span
import CallRelay.Wire.Message

/-! # Relay settings

The size and the pace of outbound audio messages and the limits on what a session waits for. Settings
are checked before anything is connected, read or written. -/

namespace CallRelay

/-- The settings of a session. -/
structure Config where
  /-- The most payload bytes of an outbound audio message: 20 ms at 8000 Hz and two bytes. -/
  frameSize : Nat := 320
  /-- The time between outbound audio messages. -/
  cadence : Nat := Span.ofMillis 20
  /-- The limit on a connection attempt to one address. -/
  connectTimeout : Nat := Span.ofMillis 2000
  /-- The limit on the wait for the peer's identity. -/
  bootstrapTimeout : Nat := Span.ofSeconds 5
  /-- The limit on the trailing hangup, and again on the shutdown. -/
  drainTimeout : Nat := Span.ofMillis 500
  deriving DecidableEq, Repr

/-- The most bytes that one read of a connection takes. -/
def readBuffer : Nat := 4096

/-- What is wrong with settings. -/
inductive ConfigFault
  | zeroFrame
  | oversizeFrame
  | zeroCadence
  | zeroConnectTimeout
  deriving DecidableEq, Repr

/-- The text of a fault in settings. -/
def ConfigFault.message : ConfigFault → String
  | .zeroFrame => "frame_size must be positive"
  | .oversizeFrame => "frame_size exceeds 65535 bytes"
  | .zeroCadence => "cadence must be positive"
  | .zeroConnectTimeout => "connect_timeout must be positive"

namespace Config

/-- The first fault of settings. -/
def fault? (c : Config) : Option ConfigFault :=
  if c.frameSize = 0 then some .zeroFrame
  else if maxPayload < c.frameSize then some .oversizeFrame
  else if c.cadence = 0 then some .zeroCadence
  else if c.connectTimeout = 0 then some .zeroConnectTimeout
  else none

/-- Settings under which a session runs. -/
structure Valid (c : Config) : Prop where
  frame_pos : 0 < c.frameSize
  frame_le : c.frameSize ≤ maxPayload
  cadence_pos : 0 < c.cadence
  connect_pos : 0 < c.connectTimeout

/-- Settings without a fault are the valid ones. -/
theorem fault?_eq_none_iff {c : Config} : c.fault? = none ↔ c.Valid := by
  unfold fault?
  constructor
  · intro h
    split at h <;> try cases h
    split at h <;> try cases h
    split at h <;> try cases h
    split at h <;> try cases h
    constructor <;> omega
  · rintro ⟨h1, h2, h3, h4⟩
    rw [if_neg (by omega), if_neg (by omega), if_neg (by omega), if_neg (by omega)]

instance (c : Config) : Decidable c.Valid := decidable_of_iff _ fault?_eq_none_iff

end Config
end CallRelay
