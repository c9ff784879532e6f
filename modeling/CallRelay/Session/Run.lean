import CallRelay.Session.Inbound
import CallRelay.Session.Opening
import CallRelay.Session.Outbound
import CallRelay.Session.State

/-! # Running a session

A session relays in both directions at once until one of its halves ends, or until it has to stop, which
ends the outbound half. The halves share nothing but the clock, so that each runs as if it were alone up
to the instant at which the other ends the session. Then the session hangs up, if the outbound half has
ended without an error on a message boundary, and shuts its connection down.

Where both halves are ready at the very instant at which one of them ends the session, either may be
looked at first. Which one is, is given. -/

namespace CallRelay

/-- The local side of a call: where its audio comes from, where the peer's audio goes, and who is told of
    the peer's signals. -/
structure Leg (σ κ η : Type) where
  source : Source σ
  voice : σ
  sink : Sink κ
  ear : κ
  handler : Handler η
  watch : η

/-- The circumstances of a run. -/
structure Terms where
  clock : Clock
  /-- The longest that the session may run. -/
  deadline : Nat
  /-- The instant at which the session is cancelled. -/
  cancel : Option Nat := none
  /-- The half that is looked at first. -/
  first : Half := .inbound

/-- Bytes that a connection accepted, when, and in which state of the session. -/
structure Written where
  time : Nat
  state : Option SessionState
  bytes : Bytes
  deriving DecidableEq, Repr

namespace Session

/-- What ended a session: the instant, the half, and the outcome. -/
structure Ending where
  time : Nat
  half : Half
  verdict : Except RelayError Disposition

/-- The instant before which the outbound half acts, if the inbound half ends the session at `t`. -/
def cutFor (first : Half) (t : Nat) : Nat := match first with | .outbound => t + 1 | .inbound => t

/-- What the ending of the inbound half means for the session. -/
def inboundVerdict : InboundEnd → Except RelayError Disposition
  | .peerHangup => .ok .peerHangup
  | .peerClosed => .ok .peerClosed
  | .failed e => .error e

/-- The ending of a session from its halves; `stop` is the instant at which it has to stop. -/
def ending (first : Half) (stop : Nat) (reason : Disposition) (o : Outbound) (i : Option (Nat × InboundEnd)) : Ending :=
  match o.ending, i with
  | .exhausted, _ => ⟨o.time, .outbound, .ok .completed⟩
  | .failed e, _ => ⟨o.time, .outbound, .error e⟩
  | .cut, none => ⟨stop, .outbound, .ok reason⟩
  | .cut, some (t, e) =>
    if stop < cutFor first t then ⟨stop, .outbound, .ok reason⟩ else ⟨t, .inbound, inboundVerdict e⟩

/-- Merges two logs in the order of their instants; at one instant the first goes before. -/
def mergeLines : List (Nat × Line) → List (Nat × Line) → List Line
  | [], b => b.map Prod.snd
  | a, [] => a.map Prod.snd
  | (s, x) :: a, (t, y) :: b => if s ≤ t then x :: mergeLines a ((t, y) :: b) else y :: mergeLines ((s, x) :: a) b

/-- The line for the report of a run. -/
def closedLine (tag : Label) (d : Disposition) (sent received : Traffic) : Line :=
  .tagged .info tag ("Session closed: " ++ d.text ++ ", sent " ++ toString sent.frames ++ " frames (" ++
    toString sent.bytes ++ " bytes), received " ++ toString received.frames ++ " frames (" ++ toString received.bytes ++
    " bytes)")

/-- The pieces accepted in one state. -/
def writtenIn (state : Option SessionState) (pieces : List (Nat × Bytes)) : List Written :=
  pieces.map fun p => ⟨p.1, state, p.2⟩

/-- The two halves of a run as far as they went, and what ended it. -/
structure Halves where
  outbound : Outbound
  inbound : List (Nat × InboundAct)
  ending : Ending

/-- Relays in both directions until a half ends or `stop` comes. The first tick is due at `due`. -/
def relay {σ κ η : Type} (s : Session) (leg : Leg σ κ η) (clock : Clock) (first : Half) (stop due : Nat)
    (reason : Disposition) : Halves :=
  let i := Inbound.run leg.sink leg.handler s.reader leg.ear leg.watch s.opened
  let limit := match i.ending with | some (t, _) => min stop (cutFor first t) | none => stop
  let pacing : Pacing := ⟨s.config.frameSize, s.config.cadence, s.valid.cadence_pos, clock⟩
  let o := Outbound.run leg.source s.outflow pacing limit leg.voice s.mark s.opened due
  let e := ending first stop reason o i.ending
  let acts := match e.half, first with
    | .inbound, _ => i.acts
    | .outbound, .outbound => i.before e.time
    | .outbound, .inbound => i.before (e.time + 1)
  ⟨o, acts, e⟩

namespace Halves

/-- Tells whether the outbound half ended the session without an error. -/
def drains (h : Halves) : Bool :=
  match h.ending.half, h.ending.verdict with
  | .outbound, .ok _ => true
  | _, _ => false

/-- The audio sent. -/
def sent (h : Halves) : Traffic := .of h.outbound.sent

/-- The audio received. -/
def received (h : Halves) : Traffic := .of (Inbound.handedOf h.inbound)

/-- What the run returns. -/
def result (h : Halves) (id : Identity) : Except RelayError Summary :=
  h.ending.verdict.map fun d => ⟨id, d, h.sent, h.received⟩

/-- What the halves logged. -/
def lines (h : Halves) (tag : Label) : List Line :=
  mergeLines (h.inbound.flatMap fun a => (Inbound.lines tag a.2).map (a.1, ·)) h.outbound.lines

end Halves

/-- The course of a run. -/
structure Report where
  halves : Halves
  /-- The states published, each with its instant. -/
  states : List (Nat × SessionState)
  writes : List Written
  /-- When a hangup was begun, if one was. -/
  attempt : Option Nat
  /-- When the connection was shut down, and in which state. -/
  shutdown : Nat × SessionState
  /-- When the run returned, and with what. -/
  time : Nat
  result : Except RelayError Summary
  lines : List Line

/-- The audio that the sink was done with. -/
def Report.heard (r : Report) : Bytes := (Inbound.playedOf r.halves.inbound).flatten

/-- Hangs up, if there is reason to and the stream is on a message boundary. -/
def hangUp (s : Session) (clock : Clock) (h : Halves) : Effort :=
  let now := h.ending.time
  if h.drains then
    if h.outbound.phase.isAligned then
      .hangup clock s.outflow (Transfer.markAfter s.mark h.outbound.pieces) now s.config.drainTimeout s.tag
    else ⟨[], now, [.tagged .warn s.tag "Frame cut short, skipping hangup"], none⟩
  else ⟨[], now, [], none⟩

/-- The lines between the halves and the hangup. -/
def drainLines (tag : Label) (h : Halves) : List Line :=
  match h.ending.half, h.ending.verdict with
  | .outbound, .ok d => [.tagged .debug tag ("Draining after " ++ d.text)]
  | _, _ => []

/-- The last line of a run. -/
def lastLine (tag : Label) (h : Halves) : Line :=
  match h.ending.verdict with
  | .ok d => closedLine tag d h.sent h.received
  | .error e => .tagged .error tag ("Session failed: " ++ e.message)

/-- Ends a session whose halves have ended. -/
def close (s : Session) (clock : Clock) (h : Halves) : Report :=
  let hangup := hangUp s clock h
  let closing := Effort.shutdown clock s.outflow hangup.time s.config.drainTimeout s.tag
  { halves := h
    states := [(s.opened, .starting), (s.opened, .streaming)] ++
      (if h.drains then [(h.ending.time, .draining)] else []) ++ [(closing.time, .closed)]
    writes := writtenIn (some .streaming) h.outbound.pieces ++ writtenIn (some .draining) hangup.pieces
    attempt := hangup.attempt
    shutdown := (hangup.time, if h.drains then .draining else .streaming)
    time := closing.time
    result := h.result s.identity
    lines := h.lines s.tag ++ drainLines s.tag h ++ hangup.lines ++ closing.lines ++ [lastLine s.tag h] }

/-- What is logged when a run starts. -/
def startLine (tag : Label) (deadline : Nat) : Line :=
  .tagged .info tag ("Streaming (deadline " ++ Span.text deadline ++ ")")

/-- Runs a session. There is no run if the clock has no instant for the first tick or for the deadline. -/
def run? {σ κ η : Type} (s : Session) (leg : Leg σ κ η) (terms : Terms) : Option Report := do
  let deadline ← terms.clock.deadline? s.opened terms.deadline
  let due ← terms.clock.add? s.opened s.config.cadence
  let stop : Stop := ⟨terms.clock.wake deadline, terms.cancel⟩
  let halves := relay s leg terms.clock terms.first (stop.instant s.opened) due stop.reason
  let report := close s terms.clock halves
  some { report with lines := startLine s.tag terms.deadline :: report.lines }

end Session

namespace Written

/-- Joins neighbours that were accepted at one instant in one state. -/
def join : List Written → List Written
  | [] => []
  | w :: rest =>
    match join rest with
    | [] => [w]
    | v :: later =>
      if v.time = w.time ∧ v.state = w.state then ⟨w.time, w.state, w.bytes ++ v.bytes⟩ :: later else w :: v :: later

end Written
end CallRelay
