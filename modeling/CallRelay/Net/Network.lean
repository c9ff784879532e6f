import CallRelay.Fault
import CallRelay.Net.Address
import CallRelay.Net.Endpoint

/-! # Networks

What the relay needs of a network: the addresses of a host, the outcome of an attempt to connect to an
address, and whether an address can be listened on. -/

namespace CallRelay

/-- A network on which an attempt that succeeds yields a `γ`. -/
structure Network (γ : Type) where
  /-- The addresses of a host that is no number. -/
  lookup (host : String) (port : Nat) : Except Fault (List Address)
  /-- The outcome of an attempt to connect behind `made` others and the time it takes, or nothing if there is
      no answer. -/
  attempt (made : Nat) (a : Address) : Option (Nat × Except Fault γ)
  /-- Listening on an address. -/
  listen (a : Address) : Except Fault Unit

namespace Network

/-- The fault of a text that is no address. -/
def invalidAddress : Fault := ⟨.invalidInput, "invalid socket address"⟩

/-- The fault of a text whose port is no port. -/
def invalidPort : Fault := ⟨.invalidInput, "invalid port value"⟩

/-- The fault of a host with a NUL character. -/
def nulInHost : Fault := ⟨.invalidInput, "file name contained an unexpected NUL byte"⟩

/-- The fault of a machine without a route. -/
def unreachable : Fault := ⟨.networkUnreachable, "Network is unreachable (os error 101)"⟩

/-- The fault of a host whose name cannot be looked up. -/
def nameless : Fault := ⟨.other, "failed to lookup address information: Temporary failure in name resolution"⟩

/-- The addresses that a text names: an address itself, or a host and a port. -/
def addresses {γ : Type} (net : Network γ) (text : String) : Except Fault (List Address) :=
  match Address.ofText? text with
  | some a => .ok [a]
  | none =>
    match Endpoint.splitLast text.toList with
    | none => .error invalidAddress
    | some (host, port) =>
      match Numeral.read? 65536 port with
      | none => .error invalidPort
      | some n =>
        if host.contains (Char.ofNat 0) then .error nulInHost
        else match (Host.ofText? (String.ofList host)).or (Host.abbreviated? (String.ofList host)) with
          | some h => .ok [⟨h, n⟩]
          | none => net.lookup (String.ofList host) n

/-- A machine without a route: no name is known, no attempt succeeds, and every address can be listened on. -/
def isolated {γ : Type} : Network γ where
  lookup _ _ := .error nameless
  attempt _ _ := some (0, .error unreachable)
  listen _ := .ok ()

end Network
end CallRelay
