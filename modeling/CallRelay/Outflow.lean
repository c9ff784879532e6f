import CallRelay.Bytes
import CallRelay.Fault

/-! # What a connection accepts

The write side of a connection takes bytes as far as its credit, the size of one write and its breaking
point allow. Whatever it does to a write depends only on the bytes it has accepted, on how many writes
there were and on the instant. -/

namespace CallRelay

/-- Write credit that becomes available at an instant. -/
structure Grant where
  time : Nat
  amount : Nat
  deriving DecidableEq, Repr

/-- How writes fail behind the breaking point. -/
inductive Break
  | fault (f : Fault)
  /-- Writes accept no byte. -/
  | zero
  deriving DecidableEq, Repr

/-- How a connection answers when it is shut down. -/
inductive Shutdown
  | done
  | hangs
  | fault (f : Fault)
  deriving DecidableEq, Repr

/-- The write side of a connection. -/
structure Outflow where
  /-- The credit over time; unlimited if absent. -/
  grants : Option (List Grant) := none
  /-- The most bytes that the n-th write takes. -/
  most : Nat → Nat
  /-- The number of bytes behind which every write fails, and how. -/
  breaks : Option (Nat × Break) := none
  /-- How long a write waits there before it fails. -/
  breakDelay : Nat := 0
  shutdown : Shutdown := .done
  /-- How long it takes to be shut down, if it ever is. -/
  shutdownDelay : Nat := 0

/-- How far a write side has been used: the bytes accepted and the writes that accepted some. -/
structure Mark where
  accepted : Nat := 0
  writes : Nat := 0
  deriving DecidableEq, Repr

/-- What became of one write. -/
inductive Taken
  | bytes (n : Nat)
  | fault (f : Fault)
  deriving DecidableEq, Repr

/-- How handing over a string of bytes ended. -/
inductive Delivery
  | done (time : Nat)
  | failed (time : Nat) (f : Fault)
  /-- Credit never suffices. -/
  | stuck
  deriving DecidableEq, Repr

/-- The pieces in which bytes were accepted, each with its instant, and how it ended. -/
structure Transfer where
  pieces : List (Nat × Bytes)
  mark : Mark
  ending : Delivery

namespace Outflow

/-- The credit granted up to an instant. -/
def credit (gs : List Grant) (t : Nat) : Nat := total ((gs.filter (·.time ≤ t)).map (·.amount))

/-- The first instant from `now` on at which more than `accepted` bytes have been granted. -/
def opensAt (gs : List Grant) (accepted now : Nat) : Option Nat :=
  if accepted < credit gs now then some now
  else ((gs.map (·.time)).filter fun t => now < t && accepted < credit gs t).min?

/-- The bytes left before the breaking point, at most `offered`. -/
def untilBreak (o : Outflow) (m : Mark) (offered : Nat) : Nat :=
  match o.breaks with
  | none => offered
  | some (k, _) => min offered (k - m.accepted)

/-- Writes behind the breaking point fail so. -/
def broken? (o : Outflow) (m : Mark) : Option Break :=
  match o.breaks with
  | none => none
  | some (k, how) => if k ≤ m.accepted then some how else none

/-- One write of `offered` bytes: when it is answered and what became of it. -/
def write (o : Outflow) (m : Mark) (offered now : Nat) : Option (Nat × Taken) :=
  match o.broken? m with
  | some (.fault f) => some (now + o.breakDelay, .fault f)
  | some .zero => some (now + o.breakDelay, .bytes 0)
  | none =>
    let size := min (o.untilBreak m offered) (o.most m.writes)
    match o.grants with
    | none => some (now, .bytes size)
    | some gs => (opensAt gs m.accepted now).map fun t => (t, .bytes (min size (credit gs t - m.accepted)))

/-- Writes until all bytes are accepted. A write that accepts nothing is a failure. -/
def send (o : Outflow) (m : Mark) (b : Bytes) (now : Nat) : Transfer :=
  if _hb : b = [] then ⟨[], m, .done now⟩
  else match o.write m b.length now with
    | none => ⟨[], m, .stuck⟩
    | some (t, .fault f) => ⟨[], m, .failed t f⟩
    | some (t, .bytes n) =>
      if _hn : n = 0 then ⟨[], m, .failed t FaultKind.writeZero.fault⟩
      else
        let later := o.send ⟨m.accepted + n, m.writes + 1⟩ (b.drop n) t
        ⟨(t, b.take n) :: later.pieces, later.mark, later.ending⟩
termination_by b.length
decreasing_by
  have := List.length_pos_iff.mpr _hb
  simp only [List.length_drop]
  omega

end Outflow

namespace Transfer

/-- The bytes of a list of pieces. -/
def bytesOf (pieces : List (Nat × Bytes)) : Bytes := pieces.flatMap Prod.snd

/-- The mark after the given pieces. -/
def markAfter (m : Mark) (pieces : List (Nat × Bytes)) : Mark :=
  ⟨m.accepted + (bytesOf pieces).length, m.writes + pieces.length⟩

/-- The pieces accepted before an instant. -/
def before (limit : Nat) (pieces : List (Nat × Bytes)) : List (Nat × Bytes) := pieces.filter (·.1 < limit)

end Transfer
end CallRelay
