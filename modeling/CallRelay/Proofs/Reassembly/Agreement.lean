import CallRelay.Proofs.Dispatch
import CallRelay.Proofs.Reassembly.Calls
import CallRelay.Proofs.Wire.Blocking

/-! # One stream read in three ways

A byte string is read as the same messages from a buffer, from a blocking stream and by a reader to which it
arrives over time, however it is cut into pieces. All three stop at the same left-over bytes: the buffer and the
blocking stream with the same fault, and the reader with the end of the stream and these bytes in its buffer. -/

namespace CallRelay

/-! ### Calls that are waited for -/

namespace Inflow

theorem answers_of_closed {i : Inflow} (h : i.stop? = some .peerClosed) (left : Bytes) :
    answers left i = (Message.decodeAll (left ++ i.front)).1.map .message ++ [.ended] ∧ i.stream = i.front := by
  induction i generalizing left with
  | nil => cases h
  | cons a rest ih =>
    obtain ⟨t, what⟩ := a
    cases what with
    | bytes b =>
      obtain ⟨hans, hstream⟩ := ih h (left ++ b)
      refine ⟨?_, congrArg (b ++ ·) hstream⟩
      rw [answers, hans, front, List.append_assoc]
    | eof =>
      rw [answers, front, List.append_nil]
      exact ⟨rfl, rfl⟩
    | fault f => cases h

end Inflow

namespace Reader

theorem Hears.stream_nil {r r' : Reader} {now t : Nat} {limit : Option Nat} {out : Option (Nat × Heard)}
    (h : Hears limit r now r' out) (hout : out = some (t, .ended)) : r'.inflow.stream = [] := by
  induction h with
  | message | waits | givenUp | failed => cases hout
  | ended hdec hread hlim hwhat => exact (Inflow.read_eof (by decide) hread hwhat).2.1
  | reads hdec hread hlim hwhat later ih => exact ih hout

theorem stream_of_next_ended {r r' : Reader} {now t : Nat} {limit : Option Nat}
    (h : r.next now limit = (r', some (t, .ended))) : r'.inflow.stream = [] :=
  (hears_of_next h).stream_nil rfl

/-- A call that is waited for returns the first answer in store. It takes it from there unless it is the end. -/
theorem next_of_answers {r : Reader} {a : Heard} {as : List Heard} (now : Nat) (h : r.answers = a :: as) :
    ∃ r' t, r.next now none = (r', some (t, a)) ∧ (a ≠ .ended ∧ r'.answers = as ∨ a = .ended ∧ r'.answers = [.ended]) := by
  have hstep := next_steps r now none
  rcases hnext : r.next now none with ⟨r', out⟩
  cases out with
  | none =>
    rw [answers_of_next_none (congrArg Prod.snd hnext)] at h
    cases h
  | some p =>
    obtain ⟨t, a'⟩ := p
    rw [hnext] at hstep
    rcases hstep.answers with ⟨hne, hans⟩ | ⟨hout, hans, hans'⟩
    · obtain ⟨rfl, rfl⟩ : a' = a ∧ r'.answers = as := List.cons.inj (hans.symm.trans h)
      exact ⟨r', t, rfl, Or.inl ⟨fun hend => hne (congrArg some hend), rfl⟩⟩
    · obtain rfl : a' = .ended := Option.some.inj hout
      obtain ⟨rfl, -⟩ : Heard.ended = a ∧ [] = as := List.cons.inj (hans.symm.trans h)
      exact ⟨r', t, rfl, Or.inr ⟨rfl, hans'⟩⟩

/-- Calls that are waited for return the messages of the stream and then its end, which leaves in the buffer what is no
    message. -/
theorem calls_waited {r : Reader} {cs : List Call} {ms : List Message} {left : Bytes} {k : Nat}
    (hcs : ∀ c ∈ cs, c.limit = none) (hlen : cs.length = ms.length + k) (hans : r.answers = ms.map .message ++ [.ended])
    (hbytes : r.buffer ++ r.inflow.stream = ms.flatMap Message.encode ++ left) :
    (r.calls cs).2 = ms.map (fun m => some (Heard.message m)) ++ List.replicate k (some Heard.ended) ∧
      (0 < k → (r.calls cs).1.buffer = left) := by
  induction cs generalizing r ms k with
  | nil =>
    obtain ⟨hms, rfl⟩ : ms.length = 0 ∧ k = 0 := Nat.add_eq_zero_iff.mp hlen.symm
    rw [List.eq_nil_of_length_eq_zero hms]
    exact ⟨rfl, fun hlt => absurd hlt (Nat.lt_irrefl 0)⟩
  | cons c cs ih =>
    obtain ⟨hc, hcs⟩ := List.forall_mem_cons.mp hcs
    have hstep := next_steps r c.time c.limit
    cases ms with
    | nil =>
      -- The end stays the answer, so the calls behind this one find the reader as this one did.
      obtain ⟨r', t, hnext, ⟨hne, -⟩ | ⟨-, hans'⟩⟩ := next_of_answers c.time hans
      · exact absurd rfl hne
      rw [← hc] at hnext
      rw [hnext] at hstep
      have hstream := stream_of_next_ended hnext
      have hrest : r'.buffer ++ r'.inflow.stream = [] ++ left := hstep.stream.symm.trans hbytes
      obtain ⟨k, rfl⟩ : ∃ n, k = n + 1 := ⟨cs.length, by simpa using hlen.symm⟩
      have hlen' : cs.length = ([] : List Message).length + k := by simpa using hlen
      obtain ⟨houts, hbuffer⟩ := ih hcs hlen' hans' hrest
      refine ⟨?_, fun _ => ?_⟩
      · simp only [calls, hnext, houts]
        rfl
      · simp only [calls, hnext]
        cases cs with
        | nil => rwa [hstream, List.append_nil] at hrest
        | cons d ds => exact hbuffer (by simp at hlen'; omega)
    | cons m ms =>
      obtain ⟨r', t, hnext, ⟨-, hans'⟩ | ⟨hend, -⟩⟩ := next_of_answers c.time hans
      · rw [← hc] at hnext
        rw [hnext] at hstep
        have hrest : r'.buffer ++ r'.inflow.stream = ms.flatMap Message.encode ++ left := by
          have hbuf : m.encode ++ [] ++ (r'.buffer ++ r'.inflow.stream) = m.encode ++ ms.flatMap Message.encode ++ left :=
            hstep.stream.symm.trans hbytes
          rw [List.append_nil, List.append_assoc] at hbuf
          exact List.append_cancel_left hbuf
        have hlen' : cs.length = ms.length + k := by
          simp only [List.length_cons] at hlen
          omega
        obtain ⟨houts, hbuffer⟩ := ih hcs hlen' hans' hrest
        refine ⟨?_, fun hk => ?_⟩
        · simp only [calls, hnext, houts]
          rfl
        · simp only [calls, hnext]
          exact hbuffer hk
      · cases hend

end Reader

/-! ### The three ways -/

/-- How the bytes `b` are read from a buffer, from the blocking stream `s` and by a reader of the arrivals `i`: as the
    messages `ms`, up to the bytes `left`, from which no message is read because of `e`. -/
structure ReadAlike (b : Bytes) (s : List Piece) (i : Inflow) (ms : List Message) (left : Bytes)
    (e : CodecFault) : Prop where
  buffer : Message.decodeAll b = (ms, left, e)
  incomplete : Message.decode left = .error e ∧ e.isIncomplete = true
  blocking : (Stream.readMessages (ms.length + 1) s).1 = ms.map .ok ++ [.error e]
  /-- Each message takes its bytes from the blocking stream, and there is no read behind the last of them. -/
  taken : ∀ n m, ms[n]? = some m → Stream.Takes (Stream.behind s n) m.encode (Stream.behind s (n + 1))
  /-- Behind a header without a payload the stream is left as it is. -/
  header : ∀ n m, ms[n]? = some m → m.payload = [] →
    Stream.fill headerLength (Stream.behind s n) = (.ok m.encode, Stream.behind s (n + 1))
  remains : Stream.Brings (Stream.behind s ms.length) left
  /-- Calls that are waited for return the messages and then the end, with the left-over bytes in the buffer. -/
  reader : ∀ cs k, (∀ c ∈ cs, c.limit = none) → cs.length = ms.length + k →
    ((Reader.ofInflow i).calls cs).2 = ms.map (fun m => some (Heard.message m)) ++ List.replicate k (some Heard.ended) ∧
      (0 < k → ((Reader.ofInflow i).calls cs).1.buffer = left)

/-- However the bytes are cut into pieces and arrivals, and however often the blocking stream is interrupted, the three
    ways of reading agree. -/
theorem read_alike {b : Bytes} {s : List Piece} {i : Inflow} (hs : Stream.Brings s b) (hi : i.front = b)
    (hend : i.stop? = some .peerClosed) : ∃ ms left e, ReadAlike b s i ms left e := by
  have hbytes := Message.encodes_append_left b
  have hstop := Message.decode_left b
  generalize hall : Message.decodeAll b = all at hbytes hstop
  obtain ⟨ms, left, e⟩ := all
  simp only at hbytes hstop
  rw [← hbytes] at hs
  obtain ⟨hread, hleft, htaken⟩ := Stream.readMessages_of_brings hs
  refine ⟨ms, left, e, hall, ⟨hstop, Message.isIncomplete_of_decode hstop⟩, ?_, htaken, ?_, hleft, ?_⟩
  · rw [Stream.readMessages_concat, hread, Stream.readMessage_of_incomplete hleft hstop]
  · intro n m hn hp
    have hfill := Stream.fill_of_takes (htaken n m hn)
    rwa [Message.length_encode, hp] at hfill
  · intro cs k hcs hlen
    obtain ⟨hans, hstream⟩ := Inflow.answers_of_closed hend []
    rw [List.nil_append, hi, hall] at hans
    refine Reader.calls_waited hcs hlen hans ?_
    show i.stream = _
    rw [hstream, hi, hbytes]

/-! ### A stream that ends inside a message -/

/-- Two samples, a hangup and the beginning of a message of eight bytes. -/
def brokenBytes : Bytes := [0x10, 0, 2, 1, 2, 0, 0, 0, 0x10, 0, 8, 1]

def interruptedPieces : List Piece :=
  [.fault FaultKind.interrupted.fault, .bytes [0x10], .bytes [0, 2, 1, 2, 0], .fault FaultKind.interrupted.fault,
    .bytes [0, 0, 0x10, 0, 8, 1], .fault FaultKind.interrupted.fault]

def brokenArrivals : Inflow :=
  [⟨1, .bytes [0x10, 0]⟩, ⟨1, .bytes [2, 1, 2, 0, 0, 0, 0x10]⟩, ⟨5, .bytes [0, 8, 1]⟩, ⟨9, .eof⟩]

theorem broken_read_alike : ∃ ms, ms.map Message.payload = [[1, 2], []] ∧
    ReadAlike brokenBytes interruptedPieces brokenArrivals ms [0x10, 0, 8, 1] (.incompleteBody 8 1) := by
  have hbrings : Stream.Brings interruptedPieces brokenBytes :=
    .retry rfl (.bytes (by decide) (.bytes (by decide) (.retry rfl (.bytes (by decide) (.retry rfl .nil)))))
  obtain ⟨ms, left, e, h⟩ := read_alike (i := brokenArrivals) hbrings rfl rfl
  have hms : (Message.decodeAll brokenBytes).1.map Message.payload = [[1, 2], []] := by decide +kernel
  have hleft : (Message.decodeAll brokenBytes).2 = ([0x10, 0, 8, 1], .incompleteBody 8 1) := by decide +kernel
  rw [h.buffer] at hms hleft
  cases hleft
  exact ⟨ms, hms, h⟩

end CallRelay
