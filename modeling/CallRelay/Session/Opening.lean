import CallRelay.Reader
import CallRelay.Session.Closing

/-! # Opening a session

The dialling side announces the identity of the call before anything else. The accepting side waits for
it: any other first message, or none in time, turns the connection away and shuts it down. -/

namespace CallRelay

/-- A connection: what arrives on it and what it accepts. -/
structure Connection where
  inflow : Inflow
  outflow : Outflow

/-- A session that has exchanged its identity and has not run. -/
structure Session where
  identity : Identity
  /-- The label of its log lines. -/
  tag : Label
  config : Config
  valid : config.Valid
  reader : Reader
  outflow : Outflow
  mark : Mark
  opened : Nat

/-- What opening a session comes to. -/
inductive OpeningEnd
  | opened (session : Session)
  | refused (time : Nat) (e : RelayError)
  /-- The identity is never accepted. -/
  | stuck

/-- The course of opening a session: the pieces accepted, when the connection was shut down, if at all,
    what was logged, and what it came to. -/
structure Opening where
  pieces : List (Nat × Bytes) := []
  shutdown : Option Nat := none
  lines : List Line := []
  ending : OpeningEnd

namespace Session

/-- A session labelled with its identity. -/
def start (id : Identity) (config : Config) (valid : config.Valid) (reader : Reader) (out : Outflow) (mark : Mark)
    (now : Nat) : Session :=
  ⟨id, .identity id, config, valid, reader, out, mark, now⟩

/-- The session under another label. -/
def withTag (s : Session) (tag : Label) : Session := { s with tag }

/-- Nothing is done under settings with a fault. -/
def refuseConfig (now : Nat) (f : ConfigFault) : Opening :=
  { ending := .refused now (.invalidConfig f.message) }

/-- Opens a session by announcing `id`. -/
def dial (conn : Connection) (id : Identity) (config : Config) (now : Nat) : Opening :=
  match hc : config.fault? with
  | some f => refuseConfig now f
  | none =>
    let sent := conn.outflow.send {} (encodeIdentity id) now
    match sent.ending with
    | .done t =>
      { pieces := sent.pieces
        lines := [.tagged .debug (.identity id) "Identity sent"]
        ending := .opened (start id config (Config.fault?_eq_none_iff.mp hc) (.ofInflow conn.inflow) conn.outflow
          sent.mark t) }
    | .failed t f => { pieces := sent.pieces, ending := .refused t (.bootstrapFailed f) }
    | .stuck => { pieces := sent.pieces, ending := .stuck }

/-- The fault of a peer that keeps silent. -/
def noIdentityInTime : Fault := ⟨.timedOut, "no identity message before bootstrap timeout"⟩

/-- The fault of a peer that closes the connection first. -/
def closedBeforeIdentity : Fault := ⟨.unexpectedEof, "connection closed before identity message"⟩

/-- Judges the first message. -/
def judge : Heard → Except RelayError Identity
  | .message m => m.identity?.elim (.error (.protocolViolation m.rawKind)) .ok
  | .ended => .error (.bootstrapFailed closedBeforeIdentity)
  | .failed (.readFailure f) => .error (.bootstrapFailed f)
  | .failed e => .error e

/-- Opens a session by waiting for the identity of the peer. -/
def accept (clock : Clock) (conn : Connection) (config : Config) (now : Nat) : Opening :=
  match hc : config.fault? with
  | some f => refuseConfig now f
  | none =>
    let expiry := clock.expiry now config.bootstrapTimeout
    let (reader, heard) := (Reader.ofInflow conn.inflow).next now (some expiry)
    let (time, lines, verdict) : Nat × List Line × Except RelayError Identity := match heard with
      | some (t, h) => (t, reader.lines h, judge h)
      | none => (expiry, [], .error (.bootstrapFailed noIdentityInTime))
    match verdict with
    | .ok id =>
      { lines := lines ++ [.tagged .debug (.identity id) "Identity received"]
        ending := .opened (start id config (Config.fault?_eq_none_iff.mp hc) reader conn.outflow {} time) }
    | .error e =>
      let closing := Effort.shutdown clock conn.outflow time config.drainTimeout (.given "bootstrap")
      { shutdown := some time
        lines := lines ++ .plain .warn ("Rejecting connection: " ++ e.message) :: closing.lines
        ending := .refused closing.time e }

end Session
end CallRelay
