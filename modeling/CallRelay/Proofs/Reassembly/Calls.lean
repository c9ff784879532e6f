import CallRelay.Proofs.Reassembly

/-! # Calls one after another

Callers ask for message after message, give up calls that wait too long and ask again. Whatever they do,
they are returned the answers in store, in order and once each, and then the end over and over. -/

namespace CallRelay
namespace Reader

/-- A call for the next message: when it is made and, unless it is waited for, when it is given up. -/
structure Call where
  time : Nat
  limit : Option Nat

/-- The reader behind calls one after another, and what each returned, nothing if it was given up. -/
def calls (r : Reader) : List Call → Reader × List (Option Heard)
  | [] => (r, [])
  | c :: cs =>
    let asked := r.next c.time c.limit
    let later := calls asked.1 cs
    (later.1, asked.2.map Prod.snd :: later.2)

def returned (outs : List (Option Heard)) : List Heard := outs.filterMap id

/-- What calls that lead from `r` to `r'` do, returning `heard`: the answers `first`, then the end so
    many times. -/
structure Runs (r : Reader) (heard : List Heard) (r' : Reader) : Prop where
  stream : r.buffer ++ r.inflow.stream =
    (Heard.messages heard).flatMap Message.encode ++ (r'.buffer ++ r'.inflow.stream)
  count : r'.bytesRead + r'.inflow.stream.length = r.bytesRead + r.inflow.stream.length
  answers : ∃ first n, heard = first ++ List.replicate n .ended ∧ r.answers = first ++ r'.answers ∧
    .ended ∉ first ∧ (0 < n → r'.answers = [.ended])

theorem Runs.refl (r : Reader) : Runs r [] r :=
  ⟨rfl, rfl, [], 0, rfl, rfl, List.not_mem_nil, fun h => absurd h (Nat.lt_irrefl 0)⟩

theorem Steps.runs {r r₁ r' : Reader} {out : Option Heard} {heard : List Heard} (h : Steps r out r₁)
    (hr : Runs r₁ heard r') : Runs r (out.toList ++ heard) r' where
  stream := by
    rw [h.stream, hr.stream, Heard.messages_append, List.flatMap_append, List.append_assoc]
  count := hr.count.trans h.count
  answers := by
    obtain ⟨first, n, rfl, hans, hne, hn⟩ := hr.answers
    rcases h.answers with ⟨hout, hfirst⟩ | ⟨rfl, hend, hend₁⟩
    · refine ⟨out.toList ++ first, n, (List.append_assoc _ _ _).symm, ?_, ?_, hn⟩
      · rw [hfirst, hans, List.append_assoc]
      · rintro hmem
        rcases List.mem_append.mp hmem with hmem | hmem
        · exact hout (Option.mem_toList.mp hmem)
        · exact hne hmem
    · -- Behind the end there is nothing in store but the end.
      rw [hend₁] at hans
      cases first with
      | nil => exact ⟨[], n + 1, rfl, hend.trans hans, List.not_mem_nil, fun _ => hans.symm⟩
      | cons x first =>
        obtain ⟨rfl, -⟩ := List.cons.inj hans
        exact absurd List.mem_cons_self hne

theorem calls_runs (r : Reader) (cs : List Call) : Runs r (returned (r.calls cs).2) (r.calls cs).1 := by
  induction cs generalizing r with
  | nil => exact Runs.refl r
  | cons c cs ih =>
    have hstep := (next_steps r c.time c.limit).runs (ih (r.next c.time c.limit).1)
    have hret : returned (r.calls (c :: cs)).2 =
        ((r.next c.time c.limit).2.map Prod.snd).toList ++ returned ((r.next c.time c.limit).1.calls cs).2 := by
      cases hout : (r.next c.time c.limit).2 <;> simp only [calls, hout, returned] <;> rfl
    rw [hret]
    exact hstep

/-- Behind a call that did not return a message no message is complete. -/
theorem calls_idle (r : Reader) (cs : List Call) (hcs : cs ≠ [])
    (h : ∀ m, (r.calls cs).2.getLast? ≠ some (some (.message m))) :
    ∃ e, Message.decode (r.calls cs).1.buffer = .error e := by
  induction cs generalizing r with
  | nil => exact absurd rfl hcs
  | cons c cs ih =>
    cases cs with
    | nil => exact (next_steps r c.time c.limit).idle fun m hm => h m (congrArg some hm)
    | cons d ds => exact ih (r.next c.time c.limit).1 (List.cons_ne_nil d ds) h

/-! ### What callers see -/

/-- What calls have returned and left, made on a reader that had read nothing of the arrivals `i`. -/
structure Reassembled (i : Inflow) (outs : List (Option Heard)) (r : Reader) : Prop where
  /-- The messages returned are the first of those that the whole stream is read as. -/
  messages : Heard.messages (returned outs) <+: (Message.decodeAll i.stream).1
  /-- They are all of them once a call has found the end, and every fault has been reported then. -/
  ended : .ended ∈ returned outs → Heard.messages (returned outs) = (Message.decodeAll i.stream).1 ∧
    Heard.failures (returned outs) = i.faults.map .readFailure
  /-- An error reports one fault, behind the messages complete by then and the faults in front of it. -/
  failed : ∀ before e after, returned outs = before ++ .failed e :: after →
    ∃ (i₁ : Inflow) (t : Nat) (f : Fault) (i₂ : Inflow), i = i₁ ++ ⟨t, .fault f⟩ :: i₂ ∧
      (∀ a ∈ i₁, a.what ≠ .eof) ∧ e = .readFailure f ∧
      Heard.messages before = (Message.decodeAll i₁.stream).1 ∧ Heard.failures before = i₁.faults.map .readFailure
  count : r.bytesRead = r.buffer.length + total ((Heard.messages (returned outs)).map fun m => 3 + m.payload.length)
  /-- The bytes read are those of the messages returned and the buffer. -/
  read : i.stream.take r.bytesRead = (Heard.messages (returned outs)).flatMap Message.encode ++ r.buffer
  idle : (∀ m, outs.getLast? ≠ some (some (.message m))) → ∀ m : Message, ¬m.encode <+: r.buffer
  /-- A call that is waited for returns, unless everything has been returned and the stream stays open. -/
  waits : ∀ now, (r.next now none).2 = none → Heard.messages (returned outs) = (Message.decodeAll i.stream).1 ∧
    Heard.failures (returned outs) = i.faults.map .readFailure ∧ ∀ a ∈ i, a.what ≠ .eof

theorem messages_replicate_ended (n : Nat) : Heard.messages (List.replicate n .ended) = [] := by
  induction n with
  | zero => rfl
  | succ n ih => exact ih

theorem failures_replicate_ended (n : Nat) : Heard.failures (List.replicate n .ended) = [] := by
  induction n with
  | zero => rfl
  | succ n ih => exact ih

theorem length_encodes (ms : List Message) :
    (ms.flatMap Message.encode).length = total (ms.map fun m => 3 + m.payload.length) := by
  induction ms with
  | nil => rfl
  | cons m ms ih =>
    rw [List.flatMap_cons, List.length_append, ih, Message.length_encode]
    rfl

namespace Runs
variable {i : Inflow} {heard : List Heard} {r : Reader}

theorem messages (h : Runs (ofInflow i) heard r) :
    (Message.decodeAll i.stream).1 = Heard.messages heard ++ Heard.messages r.answers := by
  obtain ⟨first, n, rfl, hans, -, -⟩ := h.answers
  have hans : i.answers [] = first ++ r.answers := hans
  rw [Heard.messages_append, messages_replicate_ended, List.append_nil, ← Heard.messages_append, ← hans,
    Inflow.messages_answers, List.nil_append]

theorem failures (h : Runs (ofInflow i) heard r) :
    i.faults.map .readFailure = Heard.failures heard ++ Heard.failures r.answers := by
  obtain ⟨first, n, rfl, hans, -, -⟩ := h.answers
  have hans : i.answers [] = first ++ r.answers := hans
  rw [Heard.failures_append, failures_replicate_ended, List.append_nil, ← Heard.failures_append, ← hans,
    Inflow.failures_answers]

theorem ended (h : Runs (ofInflow i) heard r) (hend : .ended ∈ heard) : r.answers = [.ended] := by
  obtain ⟨first, n, rfl, -, hne, hn⟩ := h.answers
  rcases List.mem_append.mp hend with hmem | hmem
  · exact absurd hmem hne
  · exact hn (Nat.pos_of_ne_zero (List.mem_replicate.mp hmem).1)

theorem failed (h : Runs (ofInflow i) heard r) {before after : List Heard} {e : RelayError}
    (he : heard = before ++ .failed e :: after) :
    ∃ (i₁ : Inflow) (t : Nat) (f : Fault) (i₂ : Inflow), i = i₁ ++ ⟨t, .fault f⟩ :: i₂ ∧
      (∀ a ∈ i₁, a.what ≠ .eof) ∧ e = .readFailure f ∧
      Heard.messages before = (Message.decodeAll i₁.stream).1 ∧ Heard.failures before = i₁.faults.map .readFailure := by
  obtain ⟨first, n, hheard, hans, -, -⟩ := h.answers
  have hans : i.answers [] = first ++ r.answers := hans
  -- The error stands among the first answers, since nothing but the end comes behind them.
  obtain ⟨zs, rfl⟩ : ∃ zs, first = before ++ .failed e :: zs := by
    rw [he] at hheard
    rcases List.append_eq_append_iff.mp hheard with ⟨zs, rfl, hzs⟩ | ⟨zs, rfl, hzs⟩
    · cases zs with
      | nil =>
        have hmem : Heard.failed e ∈ List.replicate n .ended := by
          rw [← List.nil_append (List.replicate n _), ← hzs]
          exact List.mem_cons_self
        cases (List.mem_replicate.mp hmem).2
      | cons z zs =>
        obtain ⟨rfl, -⟩ := List.cons.inj hzs
        exact ⟨zs, rfl⟩
    · have hmem : Heard.failed e ∈ List.replicate n .ended := hzs ▸ List.mem_append_right _ List.mem_cons_self
      cases (List.mem_replicate.mp hmem).2
  rw [List.append_assoc] at hans
  exact Inflow.answers_failed hans

theorem length_read (h : Runs (ofInflow i) heard r) :
    r.bytesRead = ((Heard.messages heard).flatMap Message.encode ++ r.buffer).length := by
  have hstream := congrArg List.length h.stream
  have hcount : r.bytesRead + r.inflow.stream.length = i.stream.length := h.count.trans (Nat.zero_add _)
  simp only [ofInflow, List.nil_append, List.length_append] at hstream ⊢
  omega

theorem read (h : Runs (ofInflow i) heard r) :
    i.stream.take r.bytesRead = (Heard.messages heard).flatMap Message.encode ++ r.buffer := by
  have hstream : i.stream = (Heard.messages heard).flatMap Message.encode ++ (r.buffer ++ r.inflow.stream) := h.stream
  rw [h.length_read, hstream, ← List.append_assoc, List.take_left]

/-- With nothing in store the stream has no end. -/
theorem open_of_answers (h : Runs (ofInflow i) heard r) (hr : r.answers = []) : ∀ a ∈ i, a.what ≠ .eof := by
  intro a ha he
  obtain ⟨first, n, -, hans, hne, -⟩ := h.answers
  have hmem : .ended ∈ (ofInflow i).answers := Inflow.ended_mem_answers ha he []
  rw [hans, hr, List.append_nil] at hmem
  exact hne hmem

end Runs

/-- Whatever calls are made and given up, the messages of the stream come back in order, none is lost or
    made up, and each fault is reported once. -/
theorem calls_reassembled (i : Inflow) (cs : List Call) :
    Reassembled i ((ofInflow i).calls cs).2 ((ofInflow i).calls cs).1 := by
  have hruns := calls_runs (ofInflow i) cs
  refine ⟨?_, ?_, ?_, ?_, hruns.read, ?_, ?_⟩
  · rw [hruns.messages]
    exact List.prefix_append _ _
  · intro hend
    rw [hruns.messages, hruns.failures, hruns.ended hend]
    exact ⟨(List.append_nil _).symm, (List.append_nil _).symm⟩
  · intro before e after he
    exact hruns.failed he
  · rw [hruns.length_read, List.length_append, length_encodes, Nat.add_comm]
  · intro hlast m hm
    cases cs with
    | nil => exact Message.encode_ne_nil m (List.prefix_nil.mp hm)
    | cons c cs =>
      obtain ⟨e, he⟩ := calls_idle (ofInflow i) (c :: cs) (List.cons_ne_nil c cs) hlast
      rw [Message.decode_eq_ok_iff.mpr ⟨rfl, hm⟩] at he
      cases he
  · intro now hnone
    have hstore := answers_of_next_none hnone
    rw [hruns.messages, hruns.failures, hstore]
    exact ⟨(List.append_nil _).symm, (List.append_nil _).symm, hruns.open_of_answers hstore⟩

end Reader
end CallRelay
