import CallRelay.Net.Network
import CallRelay.Server.Error
import CallRelay.Session.Run
import CallRelay.Source.Clip

/-! # The clip service

The service plays one clip to every caller and hangs up. What the callers send is received and dropped,
and their signals are logged. -/

namespace CallRelay

/-- A service: its clip, the longest a call may last, and the settings of its sessions. -/
structure Service where
  clip : Bytes
  longest : Nat := Span.ofSeconds 120
  config : Config := {}

namespace Service

/-- The clip of a file: its whole samples. -/
def loadClip (path : String) : Except Fault Bytes → Except ServerError Bytes
  | .error f => .error (.audioFile path f)
  | .ok b => .ok (b.take (b.length / 2 * 2))

/-- Starts to listen on an address; the settings are checked first. -/
def listen {γ : Type} (s : Service) (net : Network γ) (address : String) : Except ServerError Address :=
  match s.config.fault? with
  | some f => .error (.session (.invalidConfig f.message))
  | none =>
    match net.addresses address with
    | .error f => .error (.io f)
    | .ok [] => .error (.io Network.invalidAddress)
    | .ok (a :: _) =>
      match net.listen a with
      | .error f => .error (.io f)
      | .ok _ => .ok a

/-- Waits for the identity of a caller, whose log lines are labelled with its address. -/
def answer (s : Service) (clock : Clock) (conn : Connection) (peer : Address) (now : Nat) : Opening :=
  let opening := Session.accept clock conn s.config now
  match opening.ending with
  | .opened session => { opening with ending := .opened (session.withTag (.given peer.text)) }
  | _ => opening

/-- Plays the clip to a caller. -/
def play? (s : Service) (session : Session) (clock : Clock) (cancel : Option Nat) : Option Session.Report :=
  session.run? ⟨Clip.source, { data := s.clip }, Sink.discard, (), Handler.log session.tag, ()⟩
    { clock, deadline := s.longest, cancel }

end Service
end CallRelay
