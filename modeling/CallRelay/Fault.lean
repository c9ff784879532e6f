/-! # I/O faults

A fault is what a stream, a channel or a file reports when it fails: its kind and its text. -/

namespace CallRelay

/-- What sort of failure a fault is. -/
inductive FaultKind
  | brokenPipe
  | connectionReset
  | connectionAborted
  | connectionRefused
  | timedOut
  | unexpectedEof
  | notConnected
  | notFound
  | permissionDenied
  | interrupted
  | invalidData
  | invalidInput
  | writeZero
  | networkUnreachable
  | isADirectory
  | other
  deriving DecidableEq, Repr

/-- The text of a fault that says nothing more than its kind. -/
def FaultKind.text : FaultKind → String
  | .brokenPipe => "broken pipe"
  | .connectionReset => "connection reset"
  | .connectionAborted => "connection aborted"
  | .connectionRefused => "connection refused"
  | .timedOut => "timed out"
  | .unexpectedEof => "unexpected end of file"
  | .notConnected => "not connected"
  | .notFound => "entity not found"
  | .permissionDenied => "permission denied"
  | .interrupted => "operation interrupted"
  | .invalidData => "invalid data"
  | .invalidInput => "invalid input parameter"
  | .writeZero => "write zero"
  | .networkUnreachable => "network unreachable"
  | .isADirectory => "is a directory"
  | .other => "other error"

/-- A failure of a stream, a channel or a file. -/
structure Fault where
  kind : FaultKind
  text : String
  deriving DecidableEq, Repr

/-- The fault that says nothing more than its kind. -/
def FaultKind.fault (k : FaultKind) : Fault := ⟨k, k.text⟩

end CallRelay
