import CallRelay.Error

/-! # Server errors -/

namespace CallRelay

/-- An error of the server. -/
inductive ServerError
  | io (fault : Fault)
  | session (e : RelayError)
  | audioFile (path : String) (fault : Fault)
  deriving Repr

namespace ServerError

/-- The text of an error. -/
def message : ServerError → String
  | io fault => "IO error: " ++ fault.text
  | session e => "Session error: " ++ e.message
  | audioFile path fault => "Failed to read audio file " ++ path ++ ": " ++ fault.text

/-- The text of the error underneath. -/
def cause : ServerError → String
  | io fault | audioFile _ fault => fault.text
  | session e => e.message

end ServerError
end CallRelay
