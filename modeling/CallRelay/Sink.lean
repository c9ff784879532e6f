import CallRelay.Host

/-! # Audio sinks

A sink takes inbound audio, one payload after another. It may take its time, it may fail, and it may
never be done. -/

namespace CallRelay

/-- What became of one payload: how long it took, whether it was taken, and the sink behind it. -/
structure Played (κ : Type) where
  delay : Nat
  outcome : Except Fault Unit
  sink : κ

/-- A sink of audio with states `κ`. -/
structure Sink (κ : Type) where
  write (k : κ) (b : Bytes) (now : Nat) : Option (Played κ)

namespace Sink

/-- A buffer that keeps everything. -/
def buffer : Sink Bytes where
  write k b _ := some ⟨0, .ok (), k ++ b⟩

/-- A sink that keeps nothing. -/
def discard : Sink Unit where
  write k _ _ := some ⟨0, .ok (), k⟩

/-- The fault of sending to a channel that nobody receives from. -/
def receiverGone : Fault := ⟨.brokenPipe, "audio receiver dropped"⟩

/-- A channel whose receiver goes away after so many payloads, never if absent. Its state is what was
    received. -/
def channel (leaves : Option Nat) : Sink (List Bytes) where
  write k b _ :=
    if leaves.any (· ≤ k.length) then some ⟨0, .error receiverGone, k⟩ else some ⟨0, .ok (), k ++ [b]⟩

/-- The speaker of a host channel. Its state is the number of frames played. -/
def host (h : HostSpeaker) : Sink Nat where
  write k _ _ :=
    if h.succeeds.any (· ≤ k) then some ⟨h.delay, .error h.fault, k⟩ else some ⟨h.delay, .ok (), k + 1⟩

/-- The writes of a list of payloads one after another, going on behind faults: the instant and the outcome
    of each, up to one that is never done. -/
def writeAll {κ : Type} (sink : Sink κ) (k : κ) (now : Nat) : List Bytes → List (Nat × Bytes × Except Fault Unit) × κ
  | [] => ([], k)
  | b :: rest =>
    match sink.write k b now with
    | none => ([], k)
    | some p =>
      let (later, k) := writeAll sink p.sink (now + p.delay) rest
      ((now + p.delay, b, p.outcome) :: later, k)

end Sink
end CallRelay
