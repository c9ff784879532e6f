import CallRelay.Config
import CallRelay.Error
import CallRelay.Inflow
import CallRelay.Log

/-! # Reassembling messages

A reader gathers what it reads until the front of its buffer is a message. It reads only while there is
none, so that a message is returned as soon as its last byte has arrived, however it was cut up on the
way. A call that is given up keeps what it has read. -/

namespace CallRelay

/-- A reader: the bytes not yet returned in a message, the count of all bytes read, and what is still to
    arrive. The count stays in the range of a 64-bit counter for as long as a `Traffic` does. -/
structure Reader where
  buffer : Bytes := []
  bytesRead : Nat := 0
  inflow : Inflow

/-- What a call for the next message returns. -/
inductive Heard
  | message (m : Message)
  /-- The stream has ended. -/
  | ended
  | failed (e : RelayError)

namespace Reader

/-- A reader that has read nothing. -/
def ofInflow (i : Inflow) : Reader := { inflow := i }

/-- The bytes that a reader holds or has before it. -/
def weight (r : Reader) : Nat := r.buffer.length + r.inflow.size

/-- The next message, the end of the stream or a failure with its instant, or nothing if the call still
    waits at `limit`, or for ever without one. -/
def next (r : Reader) (now : Nat) (limit : Option Nat) : Reader × Option (Nat × Heard) :=
  match Message.decode r.buffer with
  | .ok (m, used) => ({ r with buffer := r.buffer.drop used }, some (now, .message m))
  | .error e =>
    if e.isIncomplete then
      match _hread : Inflow.read readBuffer now r.inflow with
      | none => (r, none)
      | some f =>
        if limit.any (· < f.time) then (r, none)
        else match _hwhat : f.what with
          | .eof => ({ r with inflow := f.rest }, some (f.time, .ended))
          | .fault fault => ({ r with inflow := f.rest }, some (f.time, .failed (.readFailure fault)))
          | .bytes b => next ⟨r.buffer ++ b, r.bytesRead + b.length, f.rest⟩ f.time limit
    else (r, some (now, .failed (.codec e)))
termination_by r.inflow.size
decreasing_by
  have hsize := Inflow.size_of_read _hread
  have hne := List.length_pos_iff.mpr (Inflow.read_ne_nil (by decide) _hread _hwhat)
  simp only [_hwhat] at hsize ⊢
  omega

/-- A returned message takes its bytes from those the reader had. -/
theorem weight_of_next {r r' : Reader} {now t : Nat} {limit : Option Nat} {m : Message}
    (h : r.next now limit = (r', some (t, .message m))) : r'.weight + m.encode.length = r.weight := by
  fun_induction next r now limit with
  | case1 r now m' used hdec =>
    cases h
    have hused := Message.used_of_decode hdec
    simp only [weight, List.length_drop, Message.length_encode]
    omega
  | case2 => cases h
  | case3 => cases h
  | case4 => cases h
  | case5 => cases h
  | case6 r now e hdec hinc f hread hlim b hwhat ih =>
    have hsize := Inflow.size_of_read hread
    simp only [hwhat] at hsize
    have := ih h
    simp only [weight, List.length_append] at this ⊢
    omega
  | case7 => cases h

/-- The line for a message. -/
def messageLine (m : Message) : Line :=
  .plain .trace
    ("Decoded message kind " ++ Hex.byteText m.rawKind ++ ", " ++ toString m.contentLength.toNat ++ " byte payload")

/-- The line for an end of the stream at which `left` is still in the buffer. -/
def endLines (left : Bytes) : List Line :=
  match left, Message.decode left with
  | [], _ => []
  | _, .ok _ => []
  | _, .error e =>
    [.plain .warn
      ("Stream ended inside a message, dropping " ++ toString left.length ++ " buffered byte(s): " ++ e.message)]

/-- What a reader logs when it answers. -/
def lines (r : Reader) : Heard → List Line
  | .message m => [messageLine m]
  | .ended => endLines r.buffer
  | .failed _ => []

end Reader
end CallRelay
