import CallRelay.Clock.Instant
import CallRelay.Log
import CallRelay.Outflow
import CallRelay.Wire.Encoding

/-! # Hanging up and shutting down

At its end a session may send a hangup, and it always shuts its connection down. Both are best efforts
within a limit: whatever becomes of them is logged and changes nothing else. -/

namespace CallRelay

/-- A best effort: the pieces accepted, when it was over, what was logged, and when a hangup was begun, if one was. -/
structure Effort where
  pieces : List (Nat × Bytes)
  time : Nat
  lines : List Line
  attempt : Option Nat

namespace Effort

/-- Sends a hangup. -/
def hangup (clock : Clock) (out : Outflow) (mark : Mark) (now limit : Nat) (tag : Label) : Effort :=
  let expiry := clock.expiry now limit
  let sent := out.send mark encodeHangup now
  let late : Effort :=
    ⟨Transfer.before (expiry + 1) sent.pieces, expiry, [.tagged .warn tag "Timed out sending hangup"], some now⟩
  match sent.ending with
  | .done t => if t ≤ expiry then ⟨sent.pieces, t, [.tagged .debug tag "Sent hangup"], some now⟩ else late
  | .failed t f =>
    if t ≤ expiry then ⟨sent.pieces, t, [.tagged .warn tag ("Failed to send hangup: " ++ f.text)], some now⟩ else late
  | .stuck => late

/-- Shuts the connection down. -/
def shutdown (clock : Clock) (out : Outflow) (now limit : Nat) (tag : Label) : Effort :=
  let expiry := clock.expiry now limit
  let answered := now + out.shutdownDelay
  let late : Effort := ⟨[], expiry, [.tagged .debug tag "Shutdown timed out"], none⟩
  match out.shutdown with
  | .done => if answered ≤ expiry then ⟨[], answered, [], none⟩ else late
  | .fault f =>
    if answered ≤ expiry then ⟨[], answered, [.tagged .debug tag ("Shutdown error: " ++ f.text)], none⟩ else late
  | .hangs => late

end Effort
end CallRelay
