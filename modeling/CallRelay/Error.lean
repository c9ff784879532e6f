import CallRelay.Clock.Span
import CallRelay.Net.Address
import CallRelay.Text.Hex
import CallRelay.Wire.CodecFault
import CallRelay.Wire.Kind

/-! # Relay errors

What ends a session, or keeps one from starting. -/

namespace CallRelay

/-- An error of the relay. -/
inductive RelayError
  | codec (fault : CodecFault)
  | invalidEndpoint (endpoint reason : String)
  | resolve (endpoint : String) (fault : Fault)
  | connectTimeout (address : Address) (timeout : Nat)
  | connectRefused (address : Address)
  | connectIo (address : Address) (fault : Fault)
  | connectFailed (endpoint : String) (attempts : Nat) (last : Option RelayError)
  | bootstrapFailed (fault : Fault)
  /-- The first message is no identity; its kind byte. -/
  | protocolViolation (rawKind : UInt8)
  | protocolError (reason : String)
  | writeFailure (fault : Fault)
  | readFailure (fault : Fault)
  | sourceFailure (fault : Fault)
  | sinkFailure (fault : Fault)
  | invalidConfig (reason : String)
  deriving Repr

namespace RelayError

/-- The text of an error. -/
def message : RelayError → String
  | codec fault => "codec error: " ++ fault.message
  | invalidEndpoint endpoint reason => s!"invalid endpoint '{endpoint}': {reason}"
  | resolve endpoint fault => s!"failed to resolve '{endpoint}': {fault.text}"
  | connectTimeout address timeout =>
    "connection to " ++ address.text ++ " timed out after " ++ Span.text timeout
  | connectRefused address => "connection to " ++ address.text ++ " refused"
  | connectIo address fault => "connection to " ++ address.text ++ " failed: " ++ fault.text
  | connectFailed endpoint attempts _ => s!"failed to connect to '{endpoint}' after {attempts} attempt(s)"
  | bootstrapFailed fault => "bootstrap failed: " ++ fault.text
  | protocolViolation rawKind =>
    "protocol violation: first message must be a 16-byte identity, got " ++ (Kind.ofByte rawKind).text ++
      " (" ++ Hex.byteText rawKind ++ ")"
  | protocolError reason => "protocol error: " ++ reason
  | writeFailure fault => "write failed: " ++ fault.text
  | readFailure fault => "read failed: " ++ fault.text
  | sourceFailure fault => "audio source failed: " ++ fault.text
  | sinkFailure fault => "audio sink failed: " ++ fault.text
  | invalidConfig reason => "invalid relay configuration: " ++ reason

/-- The text of the error underneath. -/
def cause? : RelayError → Option String
  | codec fault => some fault.message
  | resolve _ fault | connectIo _ fault | bootstrapFailed fault | writeFailure fault | readFailure fault
  | sourceFailure fault | sinkFailure fault => some fault.text
  | connectFailed _ _ last => last.map message
  | _ => none

/-- Tells the errors of establishing a connection. -/
def isConnectError : RelayError → Bool
  | invalidEndpoint _ _ | resolve _ _ | connectTimeout _ _ | connectRefused _ | connectIo _ _
  | connectFailed _ _ _ => true
  | _ => false

end RelayError
end CallRelay
