import CallRelay.Bytes
import CallRelay.Fault

/-! # What arrives on a connection

The read side of a connection is the list of its arrivals. An arrival can be read once the clock has
reached its instant and everything before it has been read. A read takes bytes of one arrival only. The
end of the stream is found again by every later read, a fault once, and behind the last arrival reads
wait for ever. -/

namespace CallRelay

/-- What can be read. -/
inductive Arrived
  | bytes (b : Bytes)
  | eof
  | fault (f : Fault)
  deriving DecidableEq, Repr

/-- Something to read and the instant from which it can be read. -/
structure Arrival where
  time : Nat
  what : Arrived
  deriving DecidableEq, Repr

/-- The arrivals of a connection, in order. -/
abbrev Inflow := List Arrival

/-- What a read found, when, and what is left to read. -/
structure Found where
  time : Nat
  what : Arrived
  rest : Inflow

namespace Inflow

/-- Reads at most `room` bytes. -/
def read (room now : Nat) : Inflow → Option Found
  | [] => none
  | a :: rest =>
    match a.what with
    | .bytes [] => read room now rest
    | .bytes (x :: b) =>
      let left := (x :: b).drop room
      some ⟨max now a.time, .bytes ((x :: b).take room), if left = [] then rest else ⟨a.time, .bytes left⟩ :: rest⟩
    | .eof => some ⟨max now a.time, .eof, a :: rest⟩
    | .fault f => some ⟨max now a.time, .fault f, rest⟩

/-- The bytes of the arrivals. -/
def size : Inflow → Nat
  | [] => 0
  | ⟨_, .bytes b⟩ :: rest => b.length + size rest
  | _ :: rest => size rest

theorem size_cons_bytes (t : Nat) (b : Bytes) (rest : Inflow) : size (⟨t, .bytes b⟩ :: rest) = b.length + size rest :=
  rfl

/-- A read loses no byte: those it returns and those left make up those there were. -/
theorem size_of_read {room now : Nat} {i : Inflow} {f : Found} (h : read room now i = some f) :
    i.size = f.rest.size + (match f.what with | .bytes b => b.length | _ => 0) := by
  induction i with
  | nil => cases h
  | cons a rest ih =>
    obtain ⟨t, what⟩ := a
    unfold read at h
    simp only at h
    split at h
    · exact (Nat.zero_add _).trans (ih h)
    · next x b =>
      cases h
      simp only [size_cons_bytes]
      have hlen : (List.take room (x :: b)).length + (List.drop room (x :: b)).length = (x :: b).length := by
        rw [← List.length_append, List.take_append_drop]
      split
      · next hnil =>
        rw [hnil, List.length_nil] at hlen
        omega
      · rw [size_cons_bytes]
        omega
    · cases h
      rfl
    · cases h
      rfl

/-- A read with room never returns an empty piece. -/
theorem read_ne_nil {room now : Nat} {i : Inflow} {f : Found} {b : Bytes} (hroom : 0 < room)
    (h : read room now i = some f) (hb : f.what = .bytes b) : b ≠ [] := by
  induction i with
  | nil => cases h
  | cons a rest ih =>
    unfold read at h
    split at h
    · exact ih h
    · cases h
      cases hb
      cases room with
      | zero => omega
      | succ n => simp
    · cases h
      cases hb
    · cases h
      cases hb

end Inflow
end CallRelay
