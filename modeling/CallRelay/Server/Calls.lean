import CallRelay.Server.Registry

/-! # Calls in progress

The server takes calls while it listens. Each call opens, enters the registry, looks whether the server is
shutting down, runs, and leaves the registry. A run that panics takes its call along, which then does not
leave the registry. A shutdown first raises the sign that the calls look at and then walks the registry,
cancelling the calls it finds there; entries come and go meanwhile. All these steps may come in any order
that each call and the shutdown allow on their own. -/

namespace CallRelay

/-- Where a call stands. -/
inductive CallPhase
  /-- The connection was accepted and the identity has not come. -/
  | opening
  /-- The identity has come and the call is not registered. -/
  | identified (id : Identity)
  /-- The call has been registered and has not looked at the sign. -/
  | registered (id : Identity)
  /-- The session runs. -/
  | running (id : Identity)
  /-- The session has ended and the call has not left the registry. -/
  | leaving (id : Identity)
  /-- The session has panicked, and the call is gone. -/
  | crashed (id : Identity)
  | over
  deriving DecidableEq

/-- Tells the calls that take no further step. -/
def CallPhase.ended : CallPhase → Bool
  | .crashed _ | .over => true
  | _ => false

/-- A call: its peer, where it stands, and whether its session has been cancelled. -/
structure Call where
  peer : Address
  phase : CallPhase
  cancelled : Bool := false
  deriving DecidableEq

/-- How far a shutdown has come. -/
inductive ShutdownPhase
  | none
  /-- The walk still has to visit these identities, as far as they keep an entry. -/
  | walking (left : List Identity)
  | done
  deriving DecidableEq

/-- The identities that the walk has yet to visit, once `id` is visited or has lost its entry. -/
def ShutdownPhase.without (w : ShutdownPhase) (id : Identity) : ShutdownPhase :=
  match w with
  | .walking left => .walking (left.filter (· ≠ id))
  | w => w

/-- The calls of a server, numbered in the order in which they were accepted. -/
structure Calls where
  calls : List Call := []
  registry : Registry := {}
  /-- The sign that the server is shutting down. -/
  stopping : Bool := false
  walk : ShutdownPhase := .none
  listening : Bool := true
  /-- Serving has returned. -/
  served : Bool := false
  deriving DecidableEq

/-- A step of a call, of the shutdown, or of serving. -/
inductive CallStep
  | accept (peer : Address)
  | identify (n : Nat) (id : Identity)
  /-- The identity does not come or is none. -/
  | reject (n : Nat)
  | register (n now : Nat)
  /-- The call looks at the sign and cancels itself if it is raised. -/
  | check (n : Nat)
  /-- The session ends. -/
  | finish (n : Nat)
  /-- The session panics. -/
  | crash (n : Nat)
  | unregister (n : Nat)
  /-- A shutdown raises the sign. -/
  | raise
  /-- The walk cancels the call that is registered under an identity. -/
  | visit (id : Identity)
  /-- The shutdown returns. -/
  | settle
  | stopListening
  /-- Serving returns. -/
  | leave
  deriving DecidableEq

namespace Calls

/-- The calls with call `n` changed. -/
def update (s : Calls) (n : Nat) (f : Call → Call) : Calls := { s with calls := s.calls.modify n f }

/-- Moves call `n` on. -/
def move (s : Calls) (n : Nat) (phase : CallPhase) : Calls := s.update n fun c => { c with phase }

/-- Cancels the session of call `n`. -/
def cancel (s : Calls) (n : Nat) : Calls := s.update n fun c => { c with cancelled := true }

/-- Takes one step, if it can be taken. -/
def step (s : Calls) : CallStep → Option Calls
  | .accept peer =>
    if s.listening then some { s with calls := s.calls ++ [⟨peer, .opening, false⟩] } else none
  | .identify n id =>
    match s.calls[n]? with
    | some ⟨_, .opening, _⟩ => some (s.move n (.identified id))
    | _ => none
  | .reject n =>
    match s.calls[n]? with
    | some ⟨_, .opening, _⟩ => some (s.move n .over)
    | _ => none
  | .register n now =>
    match s.calls[n]? with
    | some ⟨peer, .identified id, _⟩ =>
      some { s.move n (.registered id) with registry := s.registry.insert id ⟨n, peer, now⟩ }
    | _ => none
  | .check n =>
    match s.calls[n]? with
    | some ⟨_, .registered id, _⟩ => some ((if s.stopping then s.cancel n else s).move n (.running id))
    | _ => none
  | .finish n =>
    match s.calls[n]? with
    | some ⟨_, .running id, _⟩ => some (s.move n (.leaving id))
    | _ => none
  | .crash n =>
    match s.calls[n]? with
    | some ⟨_, .running id, _⟩ => some (s.move n (.crashed id))
    | _ => none
  | .unregister n =>
    match s.calls[n]? with
    | some ⟨peer, .leaving id, _⟩ =>
      let registry := s.registry.eraseOf id peer
      let walk := if (registry.get? id).isNone then s.walk.without id else s.walk
      some { s.move n .over with registry, walk }
    | _ => none
  | .raise =>
    match s.walk with
    | .none => some { s with stopping := true, walk := .walking s.registry.identities }
    | _ => none
  | .visit id =>
    match s.walk, s.registry.get? id with
    | .walking _, some e => some { s.cancel e.call with walk := s.walk.without id }
    | _, _ => none
  | .settle =>
    match s.walk with
    | .walking [] => some { s with walk := .done }
    | _ => none
  | .stopListening => if s.stopping ∧ s.listening then some { s with listening := false } else none
  | .leave =>
    if s.listening ∨ s.served ∨ s.calls.any (!·.phase.ended) then none else some { s with served := true }

/-- Takes steps one after another. -/
def steps (s : Calls) (xs : List CallStep) : Option Calls := xs.foldlM step s

/-- The number of calls in progress, as the registry tells. -/
def active (s : Calls) : Nat := s.registry.size

/-- The steps of a shutdown that nothing comes between. -/
def shutdownSteps (s : Calls) : List CallStep := .raise :: (s.registry.identities.map .visit ++ [.settle])

/-- Shuts the server down. -/
def shutdown (s : Calls) : Calls := (s.steps s.shutdownSteps).getD s

end Calls
end CallRelay
