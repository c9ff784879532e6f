import CallRelay.Wire.Identity

/-! # Session states and reports

The states that a session publishes, how it can end without an error, and what it reports then. -/

namespace CallRelay

/-- The life of a session, published while it runs. -/
inductive SessionState
  /-- The identity has been exchanged. -/
  | starting
  | streaming
  /-- Sending the trailing hangup. -/
  | draining
  | closed
  deriving DecidableEq, Repr

/-- How a session ended without an error. -/
inductive Disposition
  /-- All outbound audio was delivered. -/
  | completed
  | peerHangup
  /-- The peer closed the connection without a hangup. -/
  | peerClosed
  | deadlineElapsed
  | cancelled
  deriving DecidableEq, Repr

/-- The name of a disposition in texts. -/
def Disposition.text : Disposition → String
  | .completed => "Completed"
  | .peerHangup => "PeerHangup"
  | .peerClosed => "PeerClosed"
  | .deadlineElapsed => "DeadlineElapsed"
  | .cancelled => "Cancelled"

/-- The audio of one direction: messages and payload bytes. A 64-bit counter of bytes is as good: at 8 Gbit/s it
    takes a session more than five hundred years to exceed it. -/
structure Traffic where
  frames : Nat
  bytes : Nat
  deriving DecidableEq, Repr

/-- The traffic of the given payloads. -/
def Traffic.of (payloads : List Bytes) : Traffic := ⟨payloads.length, total (payloads.map List.length)⟩

/-- The report of a session that ended without an error. -/
structure Summary where
  identity : Identity
  disposition : Disposition
  sent : Traffic
  received : Traffic
  deriving DecidableEq

/-- When a session has to stop: the instant at which the wait for its deadline ends, and the instant at
    which it is cancelled, if ever. -/
structure Stop where
  deadline : Nat
  cancel : Option Nat
  deriving DecidableEq, Repr

namespace Stop

/-- The instant at which a session that started at `start` stops. -/
def instant (s : Stop) (start : Nat) : Nat :=
  max start (match s.cancel with | some t => min t s.deadline | none => s.deadline)

/-- Why it stops then: a cancellation that has come by the deadline goes before it. -/
def reason (s : Stop) : Disposition := if s.cancel.any (· ≤ s.deadline) then .cancelled else .deadlineElapsed

end Stop

/-- The two directions of a session. -/
inductive Half
  | outbound
  | inbound
  deriving DecidableEq, Repr

end CallRelay
