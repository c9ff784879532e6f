import CallRelay.Host
import CallRelay.Source

/-! # Voice from a host channel

The voice frames of a host channel, in parts as large as requested. Other frames are skipped. Before
each read the leg is looked at: once it is down the audio ends. -/

namespace CallRelay

/-- A host channel and the rest of the last voice frame. -/
structure HostVoice where
  leg : HostLeg
  pending : Bytes := []

namespace HostVoice

/-- What is logged when the leg is found down. -/
def downLine : Line := .plain .debug "Host channel is down, ending outbound audio"

/-- What the reads of a channel come to: the instant, the frame that is not empty, the fault or nothing for
    a leg that is down, and the channel behind it. -/
structure Outcome where
  time : Nat
  what : Option (Except Fault Bytes)
  frames : List (Nat × HostRead)
  reads : Nat

/-- Reads until a voice frame that is not empty, a fault, or the leg is found down. -/
def seek (up : Nat → Nat → Bool) (now reads : Nat) : List (Nat × HostRead) → Option Outcome
  | [] => if up reads now then none else some ⟨now, none, [], reads⟩
  | (t, r) :: rest =>
    if up reads now then
      match r with
      | .voice [] | .other => seek up (max now t) (reads + 1) rest
      | .voice b => some ⟨max now t, some (.ok b), rest, reads + 1⟩
      | .fault f => some ⟨max now t, some (.error f), rest, reads + 1⟩
    else some ⟨now, none, (t, r) :: rest, reads⟩

/-- The frames and the count of reads after the reads that are answered by `limit`. -/
def skip (up : Nat → Nat → Bool) (now reads limit : Nat) : List (Nat × HostRead) → List (Nat × HostRead) × Nat
  | [] => ([], reads)
  | (t, r) :: rest =>
    if up reads now ∧ t ≤ limit then
      match r with
      | .voice [] | .other => skip up (max now t) (reads + 1) limit rest
      | _ => ((t, r) :: rest, reads)
    else ((t, r) :: rest, reads)

/-- Hands out the front of the pending frame. -/
def handOut (v : HostVoice) (room delay : Nat) : Supplied HostVoice :=
  let (chunk, pending) := v.pending.splitFront room
  { delay, supply := .chunk chunk, source := { v with pending } }

/-- The answer to a request. -/
def next (v : HostVoice) (room now : Nat) : Option (Supplied HostVoice) :=
  if v.pending ≠ [] then some (v.handOut room 0)
  else (seek v.leg.up now v.leg.reads v.leg.frames).map fun o =>
    let leg := { v.leg with frames := o.frames, reads := o.reads }
    match o.what with
    | some (.ok b) => HostVoice.handOut ⟨leg, b⟩ room (o.time - now)
    | some (.error f) => { delay := o.time - now, supply := .failed f, source := ⟨leg, []⟩ }
    | none => { delay := o.time - now, supply := .done, source := ⟨leg, []⟩, lines := [downLine] }

/-- A host channel answers when its next voice frame arrives. -/
def source : Source HostVoice where
  next := next
  dropped v _ now limit :=
    if v.pending ≠ [] then v
    else
      let (frames, reads) := skip v.leg.up now v.leg.reads limit v.leg.frames
      { v with leg := { v.leg with frames, reads } }

end HostVoice
end CallRelay
