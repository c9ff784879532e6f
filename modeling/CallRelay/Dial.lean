import CallRelay.Net.Connect
import CallRelay.Server.Settings
import CallRelay.Session.Run
import CallRelay.Source.Clip
import CallRelay.Wave.Recording

/-! # Dialling a service

A recording is played to a service in a dialled call, and what the service sends may be recorded. -/

namespace CallRelay.Dial

/-- What a call is made with. -/
structure Request where
  endpoint : String
  recording : String
  /-- Where to record the service. -/
  record : Option String
  deriving DecidableEq, Repr

/-- Reads the arguments; more than three are ignored. -/
def ofArguments? : List String → Option Request
  | endpoint :: recording :: rest => some ⟨endpoint, recording, rest.head?⟩
  | _ => none

/-- The lines printed for too few arguments. -/
def usage : List String :=
  ["Usage: dial <host:port> <wav_file> [record_wav_file]", "Example: dial 127.0.0.1:8080 prompt.wav reply.wav"]

/-- What dialling comes to, with the faults `ε` of files. -/
inductive Outcome (ε : Type)
  /-- There were too few arguments. -/
  | misused
  | unloaded (fault : Recording.LoadFault ε)
  | failed (e : RelayError)
  /-- The identity is never accepted, or the clock has no instant for the run. -/
  | stuck
  /-- The call has ended and cannot be recorded. -/
  | unrecorded (summary : Summary) (path : String) (fault : ε)
  /-- The call has ended; the file to record, if any, and its content. -/
  | ended (summary : Summary) (record : Option (String × Bytes))

/-- Everything but the end of a call is a failure. -/
def Outcome.exitCode {ε : Type} : Outcome ε → Nat
  | ended _ _ => 0
  | _ => 1

/-- The local side of a call: a recording is played, and what the service sends is kept. -/
def leg (pcm : Bytes) : Leg Clip Bytes Unit :=
  ⟨Clip.source, { data := pcm }, Sink.buffer, [], Handler.log (.given "dial"), ()⟩

section Call
variable {ρ ω ε : Type} (net : Network Connection) (clock : Clock) (wav : Wave.Library ρ ω ε)

/-- Records what was heard in a call, if that is asked for. -/
def conclude (record : Option String) (heard : Bytes) (summary : Summary) : Outcome ε :=
  match record with
  | none => .ended summary none
  | some path =>
    match Recording.save wav heard with
    | .error e => .unrecorded summary path e
    | .ok file => .ended summary (some (path, file))

/-- Makes a call with the given recording from the instant `now`. -/
def call (r : Request) (pcm : Bytes) (id : Identity) (seconds now : Nat) (cancel : Option Nat) : Outcome ε :=
  let config : Config := {}
  let tried := net.connect clock r.endpoint config.connectTimeout now
  match tried.outcome with
  | .error e => .failed e
  | .ok conn =>
    match (Session.dial conn id config (now + tried.elapsed)).ending with
    | .refused _ e => .failed e
    | .stuck => .stuck
    | .opened s =>
      match s.run? (leg pcm) { clock, deadline := Span.ofSeconds seconds, cancel } with
      | none => .stuck
      | some report =>
        match report.result with
        | .error e => .failed e
        | .ok summary => conclude wav r.record report.heard summary

/-- Dials with the given arguments. The files are given by their names; `seconds` is the variable with the
    longest that the call may last. -/
def run (files : String → Option Bytes) (arguments : List String) (seconds : Option String) (id : Identity) (now : Nat)
    (cancel : Option Nat) : Outcome ε :=
  match ofArguments? arguments with
  | none => .misused
  | some r =>
    match files r.recording with
    | none => .unloaded .missing
    | some b =>
      match Recording.load wav b with
      | .error f => .unloaded f
      | .ok pcm => call net clock wav r pcm id (Settings.dialledSeconds seconds) now cancel

end Call
end CallRelay.Dial
