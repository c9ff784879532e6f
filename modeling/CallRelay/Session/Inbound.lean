import CallRelay.Handler
import CallRelay.Reader
import CallRelay.Sink

/-! # The inbound half

Messages of the peer are dealt with one after another: audio goes to the sink, signals and error reports
go to the handler. A hangup or the end of the stream ends the half; so does a message that has no place
in a session, audio that is not whole samples, and a failure of the stream or of the sink. -/

namespace CallRelay

/-- What the half does. -/
inductive InboundAct
  /-- A message was taken from the stream. -/
  | took (m : Message)
  /-- The stream was found to have ended with these bytes left over. -/
  | ranOut (left : Bytes)
  /-- A payload was handed to the sink. -/
  | handed (b : Bytes)
  /-- The sink was done with a payload. -/
  | played (b : Bytes)
  /-- The sink failed on a payload. -/
  | refused (b : Bytes) (f : Fault)
  /-- The handler was told of an event, and what it logged. -/
  | told (e : Event) (lines : List Line)

/-- Why the half ended. -/
inductive InboundEnd
  | peerHangup
  | peerClosed
  | failed (e : RelayError)

/-- The inbound half of a session: what it does, each with its instant, and its end, unless it waits for
    ever. -/
structure Inbound where
  acts : List (Nat × InboundAct)
  ending : Option (Nat × InboundEnd)

namespace Inbound

/-- Acts in front of others. -/
def prepend (acts : List (Nat × InboundAct)) (later : Inbound) : Inbound := { later with acts := acts ++ later.acts }

/-- The error for audio that is not whole samples. -/
def oddAudio (length : Nat) : RelayError :=
  .protocolError ("audio payload of " ++ toString length ++ " bytes is not whole 16-bit samples")

/-- The error for a second identity. -/
def lateIdentity : RelayError := .protocolError "identity message received after bootstrap"

/-- The event that a message raises with the handler. -/
def event (m : Message) : Event := m.errorCode?.elim (.signal m.kind m.payload) .error

/-- Runs the half from the instant `now`. -/
def run {κ η : Type} (sink : Sink κ) (handler : Handler η) (r : Reader) (k : κ) (h : η) (now : Nat) : Inbound :=
  match _heard : r.next now none with
  | (_, none) => ⟨[], none⟩
  | (r, some (t, .ended)) => ⟨[(t, .ranOut r.buffer)], some (t, .peerClosed)⟩
  | (_, some (t, .failed e)) => ⟨[], some (t, .failed e)⟩
  | (r, some (t, .message m)) =>
    match m.kind with
    | .hangup => ⟨[(t, .took m)], some (t, .peerHangup)⟩
    | .identity => ⟨[(t, .took m)], some (t, .failed lateIdentity)⟩
    | .audio =>
      if m.payload.length % 2 ≠ 0 then ⟨[(t, .took m)], some (t, .failed (oddAudio m.payload.length))⟩
      else match sink.write k m.payload t with
        | none => ⟨[(t, .took m), (t, .handed m.payload)], none⟩
        | some p => match p.outcome with
          | .error f =>
            ⟨[(t, .took m), (t, .handed m.payload), (t + p.delay, .refused m.payload f)],
              some (t + p.delay, .failed (.sinkFailure f))⟩
          | .ok _ =>
            prepend [(t, .took m), (t, .handed m.payload), (t + p.delay, .played m.payload)]
              (run sink handler r p.sink h (t + p.delay))
    | .silence | .dtmf | .error =>
      match handler.handle h (event m) t with
      | none => ⟨[(t, .took m), (t, .told (event m) [])], none⟩
      | some d => prepend [(t, .took m), (t, .told (event m) d.lines)] (run sink handler r k d.handler (t + d.delay))
termination_by r.weight
decreasing_by
  all_goals
    have := Reader.weight_of_next _heard
    have := Message.length_encode m
    unfold headerLength at *
    omega

/-- The acts before an instant. -/
def before (limit : Nat) (i : Inbound) : List (Nat × InboundAct) := i.acts.filter (·.1 < limit)

/-- The payloads handed to the sink. -/
def handedOf (acts : List (Nat × InboundAct)) : List Bytes :=
  acts.filterMap fun a => match a.2 with | .handed b => some b | _ => none

/-- The payloads that the sink was done with. -/
def playedOf (acts : List (Nat × InboundAct)) : List Bytes :=
  acts.filterMap fun a => match a.2 with | .played b => some b | _ => none

/-- The events that the handler was told of, each with its instant. -/
def toldOf (acts : List (Nat × InboundAct)) : List (Nat × Event) :=
  acts.filterMap fun a => match a.2 with | .told e _ => some (a.1, e) | _ => none

/-- The finished writes of the sink, each with its instant, payload and outcome. -/
def writesOf (acts : List (Nat × InboundAct)) : List (Nat × Bytes × Except Fault Unit) :=
  acts.filterMap fun a => match a.2 with
    | .played b => some (a.1, b, .ok ())
    | .refused b f => some (a.1, b, .error f)
    | _ => none

/-- What an act leaves in the log of a session with the given tag. -/
def lines (tag : Label) : InboundAct → List Line
  | .took m =>
    Reader.messageLine m :: match m.kind with
      | .hangup => [.tagged .info tag "Peer hung up"]
      | .error =>
        (if Kind.isKnown m.rawKind then []
          else [.tagged .warn tag ("Unknown message kind " ++ Hex.byteText m.rawKind ++ ", handling as error")]) ++
        [.tagged .debug tag ("Peer error: " ++ (m.errorCode?.getD .unknown).text)]
      | _ => []
  | .ranOut left => Reader.endLines left ++ [.tagged .info tag "Peer closed the connection"]
  | .told _ lines => lines
  | .handed _ | .played _ | .refused _ _ => []

end Inbound
end CallRelay
