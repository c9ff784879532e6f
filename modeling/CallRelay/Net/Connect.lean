import CallRelay.Clock.Instant
import CallRelay.Error
import CallRelay.Net.Network

/-! # Connecting

Every address of an endpoint is tried in order, each within the same limit, until one connects. If none
does, the error tells how many were tried and how the last of them failed. -/

namespace CallRelay

/-- One attempt: the address, the time it took and what came of it. -/
structure Attempt (γ : Type) where
  address : Address
  elapsed : Nat
  outcome : Except RelayError γ

/-- The attempts that were made to connect, in order, and what came of them. -/
structure Attempted (γ : Type) where
  attempts : List (Attempt γ) := []
  outcome : Except RelayError γ

/-- The time that all attempts took. -/
def Attempted.elapsed {γ : Type} (tried : Attempted γ) : Nat := total (tried.attempts.map (·.elapsed))

namespace Network

variable {γ : Type} (net : Network γ) (clock : Clock)

/-- The error for a fault in an attempt. -/
def attemptError (a : Address) (f : Fault) : RelayError :=
  if f.kind = .connectionRefused then .connectRefused a else .connectIo a f

/-- Tries one address at the instant `now`, behind `made` others. -/
def connectAddress (made : Nat) (a : Address) (timeout now : Nat) : Attempt γ :=
  let expiry := clock.expiry now timeout
  let late : Attempt γ := ⟨a, expiry - now, .error (.connectTimeout a timeout)⟩
  match net.attempt made a with
  | none => late
  | some (delay, outcome) =>
    if expiry < now + delay then late
    else match outcome with
      | .ok c => ⟨a, delay, .ok c⟩
      | .error f => ⟨a, delay, .error (attemptError a f)⟩

/-- Tries addresses in order from the instant `now` on, behind `made` others of which the last one failed with
    `last`: the attempts, and the connection or the error of the last attempt of all. -/
def connectFirst (timeout : Nat) :
    Nat → Nat → List Address → Option RelayError → List (Attempt γ) × Except (Option RelayError) γ
  | _, _, [], last => ([], .error last)
  | made, now, a :: rest, _ =>
    let tried := net.connectAddress clock made a timeout now
    match tried.outcome with
    | .ok c => ([tried], .ok c)
    | .error e =>
      let (later, outcome) := connectFirst timeout (made + 1) (now + tried.elapsed) rest (some e)
      (tried :: later, outcome)

/-- Tries the addresses of an endpoint. -/
def connectAny (endpoint : String) (candidates : List Address) (timeout now : Nat) : Attempted γ :=
  let (attempts, outcome) := net.connectFirst clock timeout 0 now candidates none
  ⟨attempts, outcome.mapError (.connectFailed endpoint candidates.length)⟩

/-- The fault of a host without addresses. -/
def noAddresses : Fault := ⟨.notFound, "no addresses found"⟩

/-- The addresses of an endpoint. -/
def resolve (endpoint : String) : Except RelayError (List Address) :=
  match Endpoint.ofText endpoint with
  | .error f => .error (.invalidEndpoint endpoint f.message)
  | .ok _ =>
    match net.addresses endpoint with
    | .error f => .error (.resolve endpoint f)
    | .ok [] => .error (.resolve endpoint noAddresses)
    | .ok (a :: rest) => .ok (a :: rest)

/-- Connects to an endpoint from the instant `now` on. -/
def connect (endpoint : String) (timeout now : Nat) : Attempted γ :=
  match net.resolve endpoint with
  | .error e => { outcome := .error e }
  | .ok candidates => net.connectAny clock endpoint candidates timeout now

end Network
end CallRelay
