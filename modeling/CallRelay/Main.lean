import CallRelay.Dial
import CallRelay.Server.Service
import CallRelay.Uuid.Plain
import CallRelay.Wave.Plain

/-! # The command line

Two commands: `dial` plays a recording to a service, and `serve` plays a clip to callers. Files, the
environment and the clock are those of the machine. Connections are not: the commands are given a network,
and the one of this program has no route. -/

namespace CallRelay.Command

/-- The network of this program. -/
def network : Network Connection := .isolated

/-- The content of a file, or why it cannot be read. -/
def content (path : String) : IO (Except Fault Bytes) := do
  try return .ok (← IO.FS.readBinFile path).toList
  catch e => return .error ⟨.other, toString e⟩

/-- A line of the log, on standard error. -/
def report (level : Level) (message : String) : IO Unit := IO.eprintln ((Line.plain level message).text Uuid.plain)

/-- An identity that no other call has. -/
def freshIdentity : IO Identity := do
  let b := (← IO.getRandomBytes 16).toList
  if h : b.length = 16 then return .ofRandom Uuid.plain b h else return .repeated 0

/-- Plays a recording to a service and, if asked to, records what it sends. -/
def dial (arguments : List String) : IO UInt32 := do
  let now ← IO.monoNanosNow
  let seconds ← IO.getEnv "AUDIOSOCKET_MAX_CALL_SECS"
  let recording ← match Dial.ofArguments? arguments with
    | some r => content r.recording
    | none => pure (.ok [])
  let clock : Clock := { origin := now, grain := Span.ofMillis 1 }
  let outcome := Dial.run network clock Wave.plain (fun _ => recording.toOption) arguments seconds (← freshIdentity) 0 none
  match outcome with
  | .misused => Dial.usage.forM fun line => IO.eprintln line
  | .unloaded (.mismatch m) => report .error m.message
  | .unloaded _ => report .error "The recording cannot be read"
  | .failed e => report .error ("Call failed: " ++ e.message)
  | .stuck => report .error "The call cannot be run"
  | .unrecorded _ path _ => report .error ("The call cannot be recorded to " ++ path)
  | .ended summary record =>
    report .info ("Call ended (" ++ summary.disposition.text ++ ")")
    match record with
    | some (path, file) => IO.FS.writeBinFile path ⟨file.toArray⟩
    | none => pure ()
  return UInt32.ofNat outcome.exitCode

/-- Plays a clip to callers. -/
def serve : IO UInt32 := do
  let path := Settings.audioFile (← IO.getEnv "AUDIOSOCKET_AUDIO_FILE")
  let port := Settings.listenPort (← IO.getEnv "AUDIOSOCKET_LISTEN_PORT")
  let seconds := Settings.servedSeconds (← IO.getEnv "AUDIOSOCKET_MAX_CALL_SECS")
  match Service.loadClip path (← content path) with
  | .error e =>
    report .error e.message
    return 1
  | .ok clip =>
    let service : Service := { clip, longest := Span.ofSeconds seconds }
    match service.listen network ("0.0.0.0:" ++ toString port) with
    | .error e =>
      report .error ("Server error: " ++ e.message)
      return 1
    | .ok a =>
      report .info ("Listening for AudioSocket connections on " ++ a.text)
      return 0

end CallRelay.Command

/-- Runs the command that the first argument names. -/
def main : List String → IO UInt32
  | "dial" :: arguments => CallRelay.Command.dial arguments
  | ["serve"] => CallRelay.Command.serve
  | _ => do
    IO.eprintln "Usage: dial <host:port> <wav_file> [record_wav_file] | serve"
    return 1
