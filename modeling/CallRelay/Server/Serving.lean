import CallRelay.Server.Calls
import CallRelay.Server.Service

/-! # Serving callers

A service answers its callers and plays the clip to each whose session opens. The steps of a call come from
there: it has an identity if its session has opened, and how its run ends is how playing ends. -/

namespace CallRelay

/-- A caller: where it comes from, its connection, and when that is accepted. -/
structure Caller where
  peer : Address
  connection : Connection
  accepted : Nat

namespace Service
variable (s : Service) (clock : Clock)

/-- The session of a caller, if it opens. -/
def session? (c : Caller) : Option Session :=
  match (s.answer clock c.connection c.peer c.accepted).ending with
  | .opened session => some session
  | _ => none

/-- The session of a caller is run, and is cancelled at `cancel`, if ever. -/
def Runs (c : Caller) (cancel : Option Nat) (report : Option Session.Report) : Prop :=
  ∃ session, s.session? clock c = some session ∧ s.play? session clock cancel = report

/-- The step is one of the service with these callers, which are numbered as their calls are. -/
def Takes (callers : Nat → Caller) (calls : Calls) : CallStep → Prop
  | .accept peer => peer = (callers calls.calls.length).peer
  | .identify n id => (s.session? clock (callers n)).map (·.identity) = some id
  | .reject n => s.session? clock (callers n) = none
  | .finish n => ∃ cancel r, calls.calls[n]?.map (·.cancelled) = some cancel.isSome ∧
    s.Runs clock (callers n) cancel (some r)
  | .crash n => ∃ cancel, s.Runs clock (callers n) cancel none
  | _ => True

/-- The steps, taken one after another from `calls` on, are all steps of the service. -/
def Serves (callers : Nat → Caller) : Calls → List CallStep → Prop
  | _, [] => True
  | calls, x :: xs => s.Takes clock callers calls x ∧ ∀ t, calls.step x = some t → Serves callers t xs

end Service
end CallRelay
