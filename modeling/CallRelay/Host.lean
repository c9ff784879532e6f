import CallRelay.Bytes
import CallRelay.Fault

/-! # Host channels

The call leg of a telephony host: frames that arrive from the caller, and whether the leg is up. -/

namespace CallRelay

/-- What is read from a host channel. -/
inductive HostRead
  /-- Signed linear 16-bit samples. -/
  | voice (b : Bytes)
  /-- A frame that holds no audio. -/
  | other
  | fault (f : Fault)
  deriving DecidableEq, Repr

/-- The read side of a host channel: the frames still to come, each from its instant on; how many were
    read; and whether the leg is up after so many reads at an instant. -/
structure HostLeg where
  frames : List (Nat × HostRead)
  reads : Nat := 0
  up : Nat → Nat → Bool

/-- Tells whether the leg is up. -/
def HostLeg.isUp (h : HostLeg) (now : Nat) : Bool := h.up h.reads now

/-- How a host channel plays frames: the time each takes, how many succeed, unlimited if absent, and the
    fault of those that do not. -/
structure HostSpeaker where
  delay : Nat := 0
  succeeds : Option Nat := none
  fault : Fault := FaultKind.other.fault
  deriving DecidableEq, Repr

end CallRelay
