import CallRelay.Text.Numeral

/-! # Settings from the environment

The programs take their settings from environment variables. A variable that is missing, is no text, or does
not name a value of its kind leaves the default. -/

namespace CallRelay.Settings

/-- Reads a numeral below `bound` from a variable. -/
def numeral? (bound : Nat) (v : Option String) : Option Nat := v.bind fun s => Numeral.read? bound s.toList

/-- The port to listen on. -/
def listenPort (v : Option String) : Nat := (numeral? UInt16.size v).getD 8080

/-- The file of the clip; an empty name counts as missing. -/
def audioFile (v : Option String) : String := (v.filter (· ≠ "")).getD "test.slin"

/-- The seconds that a served call may last; zero counts as missing. -/
def servedSeconds (v : Option String) : Nat := ((numeral? UInt64.size v).filter (0 < ·)).getD 120

/-- The seconds that a dialled call may last; zero ends the call at once. -/
def dialledSeconds (v : Option String) : Nat := (numeral? UInt64.size v).getD 120

end CallRelay.Settings
