import CallRelay.Log
import CallRelay.Text.Utf8
import CallRelay.Wire.Message

/-! # Signal handlers

A handler is told of the signals and the error reports of the peer. None of them ends a session. -/

namespace CallRelay

/-- A control message received during a session. -/
inductive Event
  /-- Silence or a dialled digit, with its payload as it came. -/
  | signal (kind : Kind) (payload : Bytes)
  /-- The peer reported an error. -/
  | error (code : ErrorCode)
  deriving DecidableEq, Repr

/-- What became of an event: how long the handler took, the handler behind it and what it logged. -/
structure Handled (η : Type) where
  delay : Nat
  handler : η
  lines : List Line := []

/-- A handler of events with states `η`. -/
structure Handler (η : Type) where
  handle (h : η) (e : Event) (now : Nat) : Option (Handled η)

namespace Handler

/-- Ignores every event, with a line in the log. -/
def ignore : Handler Unit where
  handle h e _ :=
    let text := match e with
      | .signal kind payload => "Ignoring " ++ kind.text ++ " signal (" ++ toString payload.length ++ " bytes)"
      | .error code => "Ignoring peer error: " ++ code.text
    some { delay := 0, handler := h, lines := [.plain .debug text] }

/-- Writes every event to the log under a label. -/
def log (tag : Label) : Handler Unit where
  handle h e _ :=
    let line : Line := match e with
      | .signal .dtmf payload =>
        .tagged .info tag ("Received DTMF '" ++ String.ofList (Utf8.decode payload) ++ "'")
      | .signal kind payload =>
        .tagged .debug tag ("Received " ++ kind.text ++ " (" ++ toString payload.length ++ " bytes)")
      | .error code => .tagged .warn tag ("Peer reported error: " ++ code.text)
    some { delay := 0, handler := h, lines := [line] }

/-- Forwards events to a channel without a limit. Its state is what was forwarded, or nothing if nobody
    receives from the channel, which is logged and otherwise ignored. -/
def channel : Handler (Option (List Event)) where
  handle h e _ :=
    match h with
    | some es => some { delay := 0, handler := some (es ++ [e]) }
    | none =>
      let text := match e with
        | .signal kind _ => "Event receiver dropped, discarding " ++ kind.text ++ " signal"
        | .error code => "Event receiver dropped, discarding error " ++ code.text
      some { delay := 0, handler := none, lines := [.plain .debug text] }

end Handler
end CallRelay
