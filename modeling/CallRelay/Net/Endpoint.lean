import CallRelay.Text.Blank
import CallRelay.Text.Numeral

/-! # Endpoints

The endpoint of a service is written as a host, a colon and a port. The last colon separates them, so that
a host may hold colons of its own. The port is a numeral from 1 to 65535. -/

namespace CallRelay

/-- A host, as it was written, and a port. -/
structure Endpoint where
  host : String
  port : Nat
  deriving DecidableEq, Repr

/-- What is wrong with the text of an endpoint. -/
inductive EndpointFault
  | blank
  | missingHost
  | missingPort
  deriving DecidableEq, Repr

/-- The text of a fault in an endpoint. -/
def EndpointFault.message : EndpointFault → String
  | .blank => "no AudioSocket server provided"
  | .missingHost => "missing host"
  | .missingPort => "a port is required"

namespace Endpoint

/-- The characters before and behind the last colon. -/
def splitLast : List Char → Option (List Char × List Char)
  | [] => none
  | c :: cs =>
    match splitLast cs with
    | some (host, port) => some (c :: host, port)
    | none => if c = ':' then some ([], cs) else none

/-- The port that a text names. -/
def port? (cs : List Char) : Option Nat := (Numeral.read? 65536 cs).filter (0 < ·)

/-- Reads an endpoint. -/
def ofText (s : String) : Except EndpointFault Endpoint :=
  if s.toList.all isBlank then .error .blank
  else match splitLast s.toList with
    | none => .error .missingPort
    | some ([], _) => .error .missingHost
    | some (host, port) =>
      match port? port with
      | none => .error .missingPort
      | some n => .ok ⟨String.ofList host, n⟩

end Endpoint
end CallRelay
