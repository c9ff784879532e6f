import CallRelay.Source

/-! # Live feeds

Frames that are sent while the source is in use. A frame longer than a request is handed out in parts. The
audio ends once the feed is closed and everything sent before has been handed out. -/

namespace CallRelay

/-- The frames still to come, each available from its instant on but only behind those before it; when
    the feed closes behind them, never if absent; and the rest of the last frame taken. -/
structure Feed where
  frames : List (Nat × Bytes)
  closes : Option Nat := some 0
  pending : Bytes := []
  deriving DecidableEq, Repr

namespace Feed

/-- The first frame that is not empty: the instant at which it is taken, the frame, and those behind it. -/
def frame? (now : Nat) : List (Nat × Bytes) → Option (Nat × Bytes × List (Nat × Bytes))
  | [] => none
  | (t, b) :: rest => if b = [] then frame? (max now t) rest else some (max now t, b, rest)

/-- The instant from which every frame of a list is available. -/
def allTaken (now : Nat) (frames : List (Nat × Bytes)) : Nat := frames.foldl (fun t f => max t f.1) now

/-- The frames behind the empty ones that are available by `limit`. -/
def skipEmpty (limit : Nat) : List (Nat × Bytes) → List (Nat × Bytes)
  | [] => []
  | (t, b) :: rest => if b = [] ∧ t ≤ limit then skipEmpty limit rest else (t, b) :: rest

/-- Hands out the front of the pending frame. -/
def handOut (f : Feed) (room delay : Nat) : Supplied Feed :=
  let (chunk, pending) := f.pending.splitFront room
  { delay, supply := .chunk chunk, source := { f with pending } }

/-- The answer to a request. -/
def next (f : Feed) (room now : Nat) : Option (Supplied Feed) :=
  if f.pending ≠ [] then some (f.handOut room 0)
  else match frame? now f.frames with
    | some (t, b, rest) => some ({ f with frames := rest, pending := b }.handOut room (t - now))
    | none =>
      f.closes.map fun t =>
        { delay := max (allTaken now f.frames) t - now, supply := .done, source := { f with frames := [] } }

/-- A feed answers when the next frame is available. -/
def source : Source Feed where
  next := next
  dropped f _ _ limit := if f.pending ≠ [] then f else { f with frames := skipEmpty limit f.frames }

end Feed
end CallRelay
