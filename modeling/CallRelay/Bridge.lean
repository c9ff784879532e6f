import CallRelay.Net.Connect
import CallRelay.Session.Run
import CallRelay.Source.HostVoice

/-! # Bridging

A call on a host channel is bridged to a service: the voice of the channel goes out in a dialled session,
and what the service sends is played on the channel. Nothing is dialled for a channel that is not up. -/

namespace CallRelay

/-- What bridging a call comes to. -/
inductive Bridged
  | refused (e : RelayError)
  /-- The identity is never accepted, or the clock has no instant for the run. -/
  | stuck
  | ran (report : Session.Report)

/-- The fault of a channel that is not up. -/
def channelDown : Fault := ⟨.notConnected, "host channel is not up"⟩

/-- Bridges a host channel to the service at an endpoint, from the instant `now`. -/
def bridge {η : Type} (net : Network Connection) (leg : HostLeg) (speaker : HostSpeaker) (endpoint : String)
    (id : Identity) (config : Config) (handler : Handler η) (watch : η) (terms : Terms) (now : Nat) : Bridged :=
  if leg.isUp now then
    match config.fault? with
    | some f => .refused (.invalidConfig f.message)
    | none =>
      let tried := net.connect terms.clock endpoint config.connectTimeout now
      match tried.outcome with
      | .error e => .refused e
      | .ok conn =>
        match (Session.dial conn id config (now + tried.elapsed)).ending with
        | .refused _ e => .refused e
        | .stuck => .stuck
        | .opened s =>
          (s.run? ⟨HostVoice.source, { leg }, Sink.host speaker, 0, handler, watch⟩ terms).elim .stuck .ran
  else .refused (.sourceFailure channelDown)

end CallRelay
