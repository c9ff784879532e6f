import CallRelay.Bytes
import CallRelay.Fault
import CallRelay.Log

/-! # Audio sources

A source hands out outbound audio on request. It may take its time, and it may never answer. -/

namespace CallRelay

/-- What a source hands out. -/
inductive Supply
  | chunk (b : Bytes)
  /-- There is no more audio. -/
  | done
  | failed (f : Fault)
  deriving DecidableEq, Repr

/-- The answer to a request: how long it took, what it is, the source behind it and what it logged. -/
structure Supplied (σ : Type) where
  delay : Nat
  supply : Supply
  source : σ
  lines : List Line := []

/-- What an answer logged, for a request made at `asked`. -/
def Supplied.linesFrom {σ : Type} (a : Supplied σ) (asked : Nat) : List (Nat × Line) :=
  a.lines.map fun l => (asked + a.delay, l)

/-- A source of audio with states `σ`. -/
structure Source (σ : Type) where
  /-- Asked for at most `room` bytes at the instant `now`, the source answers after some delay, or never. -/
  next (s : σ) (room now : Nat) : Option (Supplied σ)
  /-- The source after a request that is given up at `limit`. -/
  dropped (s : σ) (room now limit : Nat) : σ

namespace Source

/-- Asks and waits for the answer up to `limit`: the instant of the answer and the answer, or nothing,
    and the source behind it. -/
def ask {σ : Type} (src : Source σ) (s : σ) (room now limit : Nat) : Option (Nat × Supplied σ) × σ :=
  match src.next s room now with
  | some a => if now + a.delay ≤ limit then (some (now + a.delay, a), a.source) else (none, src.dropped s room now limit)
  | none => (none, src.dropped s room now limit)

end Source
end CallRelay
