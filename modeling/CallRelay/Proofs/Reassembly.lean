import CallRelay.Proofs.Arrivals
import CallRelay.Proofs.Wire.Codec
import CallRelay.Reader

/-! # Reassembly

What a reader has yet to return depends only on its buffer and on the arrivals: the messages of the bytes
up to the next fault, then the fault, and so on until the stream ends. A call returns the first of these
answers and leaves the others, wherever it was cut off before and however the bytes were cut into reads.
Hence no byte is lost or made up: what was read is the messages returned and the buffer behind them. -/

namespace CallRelay

namespace Heard

def message? : Heard → Option Message
  | message m => some m
  | _ => none

def failure? : Heard → Option RelayError
  | failed e => some e
  | _ => none

def messages (hs : List Heard) : List Message := hs.filterMap message?

def failures (hs : List Heard) : List RelayError := hs.filterMap failure?

theorem messages_append (a b : List Heard) : messages (a ++ b) = messages a ++ messages b := List.filterMap_append

theorem failures_append (a b : List Heard) : failures (a ++ b) = failures a ++ failures b := List.filterMap_append

theorem messages_map (ms : List Message) : messages (ms.map message) = ms := by
  induction ms with
  | nil => rfl
  | cons m ms ih => exact congrArg (m :: ·) ih

theorem failures_map (ms : List Message) : failures (ms.map message) = [] := by
  induction ms with
  | nil => rfl
  | cons m ms ih => exact ih

theorem failed_not_mem_map (ms : List Message) (e : RelayError) : failed e ∉ ms.map message := fun h => by
  obtain ⟨m, -, hm⟩ := List.mem_map.mp h
  cases hm

/-- An answer that is not among the first ones is the one behind them or comes later. -/
theorem append_cons_cases {xs ys bs ds : List Heard} {a c : Heard} (hc : c ∉ xs) (h : xs ++ a :: bs = ys ++ c :: ds) :
    (ys = xs ∧ a = c ∧ bs = ds) ∨ ∃ zs, ys = xs ++ a :: zs ∧ bs = zs ++ c :: ds := by
  induction xs generalizing ys with
  | nil =>
    cases ys with
    | nil => exact Or.inl ⟨rfl, List.cons.inj h⟩
    | cons y zs =>
      obtain ⟨rfl, ht⟩ := List.cons.inj h
      exact Or.inr ⟨zs, rfl, ht⟩
  | cons x xs ih =>
    cases ys with
    | nil => exact absurd (List.cons.inj h).1 fun hx => hc (hx ▸ List.mem_cons_self)
    | cons y ys =>
      obtain ⟨rfl, ht⟩ := List.cons.inj h
      rcases ih (fun hm => hc (List.mem_cons_of_mem _ hm)) ht with ⟨rfl, ha, hb⟩ | ⟨zs, rfl, hb⟩
      · exact Or.inl ⟨rfl, ha, hb⟩
      · exact Or.inr ⟨zs, rfl, hb⟩

end Heard

/-! ### The answers in store -/

namespace Inflow

/-- The answers that arrivals have in store behind the bytes `left`: the messages in front of each fault,
    the fault, and the end. -/
def answers (left : Bytes) : Inflow → List Heard
  | [] => (Message.decodeAll left).1.map .message
  | ⟨_, .bytes b⟩ :: rest => answers (left ++ b) rest
  | ⟨_, .eof⟩ :: _ => (Message.decodeAll left).1.map .message ++ [.ended]
  | ⟨_, .fault f⟩ :: rest =>
    (Message.decodeAll left).1.map .message ++ .failed (.readFailure f) :: answers (Message.decodeAll left).2.1 rest

theorem answers_encode_append (m : Message) (left : Bytes) (i : Inflow) :
    answers (m.encode ++ left) i = .message m :: answers left i := by
  induction i generalizing left with
  | nil => simp only [answers, Message.decodeAll_encode_append, List.map_cons]
  | cons a rest ih =>
    obtain ⟨t, what⟩ := a
    cases what with
    | bytes b => simp only [answers, List.append_assoc, ih]
    | eof => simp only [answers, Message.decodeAll_encode_append, List.map_cons, List.cons_append]
    | fault f => simp only [answers, Message.decodeAll_encode_append, List.map_cons, List.cons_append]

theorem Blank.answers_append {s : Inflow} (h : Blank s) (left : Bytes) (i : Inflow) :
    answers left (s ++ i) = answers left i := by
  induction s with
  | nil => rfl
  | cons a s ih =>
    obtain ⟨t, what⟩ := a
    obtain ⟨rfl, hs⟩ := List.forall_mem_cons.mp h
    show answers (left ++ []) (s ++ i) = answers left i
    rw [List.append_nil]
    exact ih hs

/-- All messages in store are those of the whole stream. -/
theorem messages_answers (left : Bytes) (i : Inflow) :
    Heard.messages (answers left i) = (Message.decodeAll (left ++ i.stream)).1 := by
  induction i generalizing left with
  | nil => rw [answers, stream, List.append_nil, Heard.messages_map]
  | cons a rest ih =>
    obtain ⟨t, what⟩ := a
    cases what with
    | bytes b => rw [answers, stream, ih, List.append_assoc]
    | eof =>
      rw [answers, stream, List.append_nil, Heard.messages_append, Heard.messages_map]
      exact List.append_nil _
    | fault f =>
      rw [answers, stream, Heard.messages_append, Heard.messages_map, Message.decodeAll_append]
      exact congrArg (_ ++ ·) (ih _)

theorem ended_mem_answers {i : Inflow} {a : Arrival} (ha : a ∈ i) (he : a.what = .eof) (left : Bytes) :
    .ended ∈ answers left i := by
  induction i generalizing left with
  | nil => cases ha
  | cons x rest ih =>
    obtain ⟨t, what⟩ := x
    rcases List.mem_cons.mp ha with rfl | hrest
    · cases he
      exact List.mem_append_right _ List.mem_cons_self
    · cases what with
      | bytes b => exact ih hrest _
      | eof => exact List.mem_append_right _ List.mem_cons_self
      | fault f => exact List.mem_append_right _ (List.mem_cons_of_mem _ (ih hrest _))

theorem failures_answers (left : Bytes) (i : Inflow) :
    Heard.failures (answers left i) = i.faults.map .readFailure := by
  induction i generalizing left with
  | nil => exact Heard.failures_map _
  | cons a rest ih =>
    obtain ⟨t, what⟩ := a
    cases what with
    | bytes b => exact ih _
    | eof => rw [answers, Heard.failures_append, Heard.failures_map]; rfl
    | fault f =>
      rw [answers, Heard.failures_append, Heard.failures_map]
      exact congrArg (RelayError.readFailure f :: ·) (ih _)

/-- In front of an error in store stand the messages that are complete before its fault, and the errors of
    the faults before. -/
theorem answers_failed {left : Bytes} {i : Inflow} {before after : List Heard} {e : RelayError}
    (h : answers left i = before ++ .failed e :: after) :
    ∃ i₁ t f i₂, i = i₁ ++ ⟨t, .fault f⟩ :: i₂ ∧ (∀ a ∈ i₁, a.what ≠ .eof) ∧ e = .readFailure f ∧
      Heard.messages before = (Message.decodeAll (left ++ stream i₁)).1 ∧
      Heard.failures before = (faults i₁).map .readFailure := by
  induction i generalizing left before with
  | nil =>
    have hmem : Heard.failed e ∈ answers left [] := h ▸ List.mem_append_right _ List.mem_cons_self
    exact absurd hmem (Heard.failed_not_mem_map _ e)
  | cons a rest ih =>
    obtain ⟨t, what⟩ := a
    cases what with
    | bytes b =>
      obtain ⟨i₁, t', f, i₂, rfl, hne, he, hm, hf⟩ := ih h
      refine ⟨⟨t, .bytes b⟩ :: i₁, t', f, i₂, rfl, List.forall_mem_cons.mpr ⟨nofun, hne⟩, he, ?_, hf⟩
      rw [hm, stream, List.append_assoc]
    | eof =>
      have hmem : Heard.failed e ∈ answers left (⟨t, .eof⟩ :: rest) := h ▸ List.mem_append_right _ List.mem_cons_self
      rcases List.mem_append.mp hmem with hmem | hmem
      · exact absurd hmem (Heard.failed_not_mem_map _ e)
      · cases List.mem_singleton.mp hmem
    | fault g =>
      rcases Heard.append_cons_cases (Heard.failed_not_mem_map _ e) h with ⟨rfl, hg, rfl⟩ | ⟨behind, rfl, hrest⟩
      · cases hg
        refine ⟨[], t, g, rest, rfl, nofun, rfl, ?_, Heard.failures_map _⟩
        rw [Heard.messages_map, stream, List.append_nil]
      · obtain ⟨i₁, t', f, i₂, rfl, hne, he, hm, hf⟩ := ih hrest
        refine ⟨⟨t, .fault g⟩ :: i₁, t', f, i₂, rfl, List.forall_mem_cons.mpr ⟨nofun, hne⟩, he, ?_, ?_⟩
        · rw [Heard.messages_append, Heard.messages_map, stream, Message.decodeAll_append, ← hm]
          rfl
        · rw [Heard.failures_append, Heard.failures_map, faults, List.map_cons, ← hf]
          rfl

/-! ### What a read leaves of them -/

section Read
variable {room now : Nat} {i : Inflow} {f : Found}

theorem read_bytes {b : Bytes} (hroom : 0 < room) (h : read room now i = some f) (hb : f.what = .bytes b) :
    i.stream = b ++ f.rest.stream ∧ ∀ left, answers left i = answers (left ++ b) f.rest := by
  obtain ⟨skipped, a, rest, rfl, hs, ht⟩ := read_eq_some hroom h
  rw [hs.stream_append]
  cases ht with
  | eof => cases hb
  | fault => cases hb
  | whole t b rest =>
    cases hb
    exact ⟨rfl, fun left => hs.answers_append left _⟩
  | part t b c rest =>
    cases hb
    refine ⟨List.append_assoc b c _, fun left => ?_⟩
    rw [hs.answers_append, answers, answers, List.append_assoc]

theorem read_fault {g : Fault} (hroom : 0 < room) (h : read room now i = some f) (hg : f.what = .fault g) :
    i.stream = f.rest.stream ∧ ∀ left, answers left i =
      (Message.decodeAll left).1.map .message ++
        .failed (.readFailure g) :: answers (Message.decodeAll left).2.1 f.rest := by
  obtain ⟨skipped, a, rest, rfl, hs, ht⟩ := read_eq_some hroom h
  rw [hs.stream_append]
  cases ht with
  | eof => cases hg
  | fault t g rest =>
    cases hg
    exact ⟨rfl, fun left => hs.answers_append left _⟩
  | whole => cases hg
  | part => cases hg

theorem read_eof (hroom : 0 < room) (h : read room now i = some f) (he : f.what = .eof) :
    i.stream = [] ∧ f.rest.stream = [] ∧
      ∀ left, answers left i = (Message.decodeAll left).1.map .message ++ [.ended] ∧
        answers left f.rest = answers left i := by
  obtain ⟨skipped, a, rest, rfl, hs, ht⟩ := read_eq_some hroom h
  rw [hs.stream_append]
  cases ht with
  | eof t rest => exact ⟨rfl, rfl, fun left => ⟨hs.answers_append left _, (hs.answers_append left _).symm⟩⟩
  | fault => cases he
  | whole => cases he
  | part => cases he

end Read
end Inflow

/-! ### One call -/

namespace Reader

/-- Everything that a call for the next message can come to: the reader that it leaves, and what it returns. -/
inductive Hears (limit : Option Nat) : Reader → Nat → Reader → Option (Nat × Heard) → Prop
  | message {r : Reader} {now used : Nat} {m : Message} (hdec : Message.decode r.buffer = .ok (m, used)) :
      Hears limit r now { r with buffer := r.buffer.drop used } (some (now, .message m))
  /-- Nothing more is to arrive. -/
  | waits {r : Reader} {now : Nat} {e : CodecFault} (hdec : Message.decode r.buffer = .error e)
      (hread : Inflow.read readBuffer now r.inflow = none) : Hears limit r now r none
  | givenUp {r : Reader} {now : Nat} {e : CodecFault} {f : Found} (hdec : Message.decode r.buffer = .error e)
      (hread : Inflow.read readBuffer now r.inflow = some f) (hlim : limit.any (· < f.time) = true) :
      Hears limit r now r none
  | ended {r : Reader} {now : Nat} {e : CodecFault} {f : Found} (hdec : Message.decode r.buffer = .error e)
      (hread : Inflow.read readBuffer now r.inflow = some f) (hlim : ¬limit.any (· < f.time) = true)
      (hwhat : f.what = .eof) : Hears limit r now { r with inflow := f.rest } (some (f.time, .ended))
  | failed {r : Reader} {now : Nat} {e : CodecFault} {f : Found} {g : Fault} (hdec : Message.decode r.buffer = .error e)
      (hread : Inflow.read readBuffer now r.inflow = some f) (hlim : ¬limit.any (· < f.time) = true)
      (hwhat : f.what = .fault g) :
      Hears limit r now { r with inflow := f.rest } (some (f.time, .failed (.readFailure g)))
  | reads {r r' : Reader} {now : Nat} {e : CodecFault} {f : Found} {b : Bytes} {out : Option (Nat × Heard)}
      (hdec : Message.decode r.buffer = .error e) (hread : Inflow.read readBuffer now r.inflow = some f)
      (hlim : ¬limit.any (· < f.time) = true) (hwhat : f.what = .bytes b)
      (later : Hears limit ⟨r.buffer ++ b, r.bytesRead + b.length, f.rest⟩ f.time r' out) : Hears limit r now r' out

theorem next_hears (r : Reader) (now : Nat) (limit : Option Nat) :
    Hears limit r now (r.next now limit).1 (r.next now limit).2 := by
  fun_induction next r now limit with
  | case1 r now m used hdec => exact .message hdec
  | case2 r now e hdec hinc hread => exact .waits hdec hread
  | case3 r now e hdec hinc f hread hlim => exact .givenUp hdec hread hlim
  | case4 r now e hdec hinc f hread hlim hwhat => exact .ended hdec hread hlim hwhat
  | case5 r now e hdec hinc f hread hlim fault hwhat => exact .failed hdec hread hlim hwhat
  | case6 r now e hdec hinc f hread hlim b hwhat ih => exact .reads hdec hread hlim hwhat ih
  | case7 r now e hdec hinc => exact absurd (Message.isIncomplete_of_decode hdec) hinc

theorem hears_of_next {r r' : Reader} {now : Nat} {limit : Option Nat} {out : Option (Nat × Heard)}
    (h : r.next now limit = (r', out)) : Hears limit r now r' out := by
  have hhears := next_hears r now limit
  rwa [h] at hhears

/-- The answers that a reader has in store. -/
def answers (r : Reader) : List Heard := r.inflow.answers r.buffer

/-- What a call that leads from `r` to `r'` does, returning `out` or given up. -/
structure Steps (r : Reader) (out : Option Heard) (r' : Reader) : Prop where
  stream : r.buffer ++ r.inflow.stream =
    (Heard.messages out.toList).flatMap Message.encode ++ (r'.buffer ++ r'.inflow.stream)
  count : r'.bytesRead + r'.inflow.stream.length = r.bytesRead + r.inflow.stream.length
  /-- The call returns the first answer in store; the end stays there. -/
  answers : out ≠ some .ended ∧ r.answers = out.toList ++ r'.answers ∨
    out = some .ended ∧ r.answers = [.ended] ∧ r'.answers = [.ended]
  idle : (∀ m, out ≠ some (.message m)) → ∃ e, Message.decode r'.buffer = .error e

theorem Hears.steps {limit : Option Nat} {r r' : Reader} {now : Nat} {out : Option (Nat × Heard)}
    (h : Hears limit r now r' out) : Steps r (out.map Prod.snd) r' := by
  induction h with
  | @message r now used m hdec =>
    have hbuf := Message.eq_encode_append_of_decode hdec
    refine ⟨?_, rfl, Or.inl ⟨by simp, ?_⟩, fun h => absurd rfl (h m)⟩
    · show r.buffer ++ _ = m.encode ++ [] ++ (r.buffer.drop used ++ r.inflow.stream)
      rw [List.append_nil, ← List.append_assoc, ← hbuf]
    · show r.inflow.answers r.buffer = .message m :: r.inflow.answers (r.buffer.drop used)
      rw [← Inflow.answers_encode_append, ← hbuf]
  | waits hdec => exact ⟨rfl, rfl, Or.inl ⟨by simp, rfl⟩, fun _ => ⟨_, hdec⟩⟩
  | givenUp hdec => exact ⟨rfl, rfl, Or.inl ⟨by simp, rfl⟩, fun _ => ⟨_, hdec⟩⟩
  | @ended r now e f hdec hread hlim hwhat =>
    obtain ⟨hs, hs', ha⟩ := Inflow.read_eof (by decide) hread hwhat
    have hended : r.answers = [.ended] := by
      rw [answers, (ha r.buffer).1, Message.decodeAll_of_error hdec]
      rfl
    refine ⟨?_, ?_, Or.inr ⟨rfl, hended, ?_⟩, fun _ => ⟨e, hdec⟩⟩
    · show r.buffer ++ r.inflow.stream = r.buffer ++ f.rest.stream
      rw [hs, hs']
    · show r.bytesRead + f.rest.stream.length = r.bytesRead + r.inflow.stream.length
      rw [hs, hs']
    · exact (ha r.buffer).2.trans hended
  | @failed r now e f g hdec hread hlim hwhat =>
    obtain ⟨hs, ha⟩ := Inflow.read_fault (by decide) hread hwhat
    refine ⟨congrArg (r.buffer ++ ·) hs, congrArg (r.bytesRead + ·.length) hs.symm, Or.inl ⟨by simp, ?_⟩,
      fun _ => ⟨e, hdec⟩⟩
    show r.inflow.answers r.buffer = .failed (.readFailure g) :: f.rest.answers r.buffer
    rw [ha, Message.decodeAll_of_error hdec]
    rfl
  | @reads r r' now e f b out hdec hread hlim hwhat later ih =>
    obtain ⟨hs, ha⟩ := Inflow.read_bytes (by decide) hread hwhat
    have hstream : r.buffer ++ r.inflow.stream = r.buffer ++ b ++ f.rest.stream := by rw [hs, List.append_assoc]
    have hanswers : r.answers = f.rest.answers (r.buffer ++ b) := ha r.buffer
    refine ⟨hstream.trans ih.stream, ih.count.trans ?_, ?_, ih.idle⟩
    · rw [hs, List.length_append]
      exact Nat.add_assoc _ _ _
    · rw [hanswers]
      exact ih.answers

theorem next_steps (r : Reader) (now : Nat) (limit : Option Nat) :
    Steps r ((r.next now limit).2.map Prod.snd) (r.next now limit).1 :=
  (next_hears r now limit).steps

/-- A call returns the first answer in store and leaves the others, unless it is the end. -/
theorem answers_of_next {r r' : Reader} {now t : Nat} {limit : Option Nat} {a : Heard}
    (h : r.next now limit = (r', some (t, a))) (ha : a ≠ .ended) : r.answers = a :: r'.answers := by
  have hstep := next_steps r now limit
  rw [h] at hstep
  rcases hstep.answers with ⟨-, hans⟩ | ⟨hend, -⟩
  · exact hans
  · exact absurd (Option.some.inj hend) ha

theorem answers_of_next_ended {r r' : Reader} {now t : Nat} {limit : Option Nat}
    (h : r.next now limit = (r', some (t, .ended))) : r.answers = [.ended] := by
  have hstep := next_steps r now limit
  rw [h] at hstep
  rcases hstep.answers with ⟨hend, -⟩ | ⟨-, hans, -⟩
  · exact absurd rfl hend
  · exact hans

theorem Hears.le_time {limit : Option Nat} {r r' : Reader} {now t : Nat} {a : Heard} {out : Option (Nat × Heard)}
    (h : Hears limit r now r' out) (hout : out = some (t, a)) : now ≤ t := by
  induction h with
  | message =>
    cases hout
    exact Nat.le_refl _
  | waits | givenUp => cases hout
  | ended hdec hread | failed hdec hread =>
    cases hout
    exact Inflow.le_time_of_read (by decide) hread
  | reads hdec hread hlim hwhat later ih => exact Nat.le_trans (Inflow.le_time_of_read (by decide) hread) (ih hout)

theorem le_time_of_next {r r' : Reader} {now t : Nat} {limit : Option Nat} {a : Heard}
    (h : r.next now limit = (r', some (t, a))) : now ≤ t :=
  (hears_of_next h).le_time rfl

/-- A call that is never given up waits for ever only when there is no answer in store. -/
theorem Hears.answers_nil {r r' : Reader} {now : Nat} {out : Option (Nat × Heard)} (h : Hears none r now r' out)
    (hout : out = none) : r.answers = [] := by
  induction h with
  | message | ended | failed => cases hout
  | @waits r now e hdec hread =>
    have hblank := Inflow.read_eq_none hread
    rw [answers, ← List.append_nil r.inflow, hblank.answers_append, Inflow.answers, Message.decodeAll_of_error hdec]
    rfl
  | givenUp hdec hread hlim => cases hlim
  | reads hdec hread hlim hwhat later ih => exact ((Inflow.read_bytes (by decide) hread hwhat).2 _).trans (ih hout)

theorem answers_of_next_none {r : Reader} {now : Nat} (h : (r.next now none).2 = none) : r.answers = [] :=
  (next_hears r now none).answers_nil h

/-- A message whose bytes are there by the limit is returned by then. -/
theorem Hears.of_arrived {r r' : Reader} {now limit : Nat} {m : Message} {out : Option (Nat × Heard)}
    (h : Hears (some limit) r now r' out) (hnow : now ≤ limit) (hm : m.encode <+: r.buffer ++ r.inflow.arrived limit) :
    ∃ t, out = some (t, .message m) ∧ t ≤ limit := by
  -- As long as the buffer holds no message, some of these bytes are still to be read.
  have hmore : ∀ {buf more : Bytes} {e : CodecFault}, Message.decode buf = .error e → m.encode <+: buf ++ more →
      more ≠ [] := by
    rintro buf more e hdec hpre rfl
    rw [List.append_nil] at hpre
    rw [Message.decode_eq_ok_iff.mpr ⟨rfl, hpre⟩] at hdec
    cases hdec
  induction h with
  | @message r now used m' hdec =>
    have hdec' := Message.decode_append hdec (r.inflow.arrived limit)
    rw [Message.decode_eq_ok_iff.mpr ⟨rfl, hm⟩] at hdec'
    cases hdec'
    exact ⟨_, rfl, hnow⟩
  | waits hdec hread =>
    have hskip := (Inflow.read_eq_none hread).arrived_append limit []
    rw [List.append_nil] at hskip
    exact absurd (List.prefix_nil.mp hskip) (hmore hdec hm)
  | givenUp hdec hread hlim =>
    rcases Inflow.read_arrived (by decide) hnow hread with hnil | ⟨hle, -⟩
    · exact absurd hnil (hmore hdec hm)
    · simp only [Option.any_some, decide_eq_true_eq] at hlim
      omega
  | ended hdec hread hlim hwhat | failed hdec hread hlim hwhat =>
    rcases Inflow.read_arrived (by decide) hnow hread with hnil | ⟨-, b, hb, -⟩
    · exact absurd hnil (hmore hdec hm)
    · cases hwhat.symm.trans hb
  | @reads r r' now e f b out hdec hread hlim hwhat later ih =>
    rcases Inflow.read_arrived (by decide) hnow hread with hnil | ⟨hle, b', hb, hpre⟩
    · exact absurd hnil (hmore hdec hm)
    · cases hwhat.symm.trans hb
      refine ih hle (hm.trans ?_)
      rw [List.append_assoc]
      exact (List.prefix_append_right_inj r.buffer).mpr hpre

theorem next_of_arrived {r : Reader} {now limit : Nat} {m : Message} (hnow : now ≤ limit)
    (hm : m.encode <+: r.buffer ++ r.inflow.arrived limit) :
    ∃ r' t, r.next now (some limit) = (r', some (t, .message m)) ∧ t ≤ limit := by
  obtain ⟨t, hout, hle⟩ := (next_hears r now (some limit)).of_arrived hnow hm
  exact ⟨_, t, Prod.ext rfl hout, hle⟩

end Reader
end CallRelay
