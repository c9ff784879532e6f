import CallRelay.Proofs.Reassembly

/-! # The first message

Whoever waits for the first message of a stream hears it when its last byte arrives, unless the end of the
stream or a fault stands in front of that byte. A reader hears just that, however large its reads are. It has
then taken the bytes of the message, and some of those behind it may be in its buffer. -/

namespace CallRelay

namespace Inflow

/-- What the arrivals bring first to one who waits from `now` on, has got the bytes `got` and finds no message in
    them: a message, the end of the stream or a fault, with its instant. -/
def first? (now : Nat) (got : Bytes) : Inflow → Option (Nat × Heard)
  | [] => none
  | ⟨t, .eof⟩ :: _ => some (max now t, .ended)
  | ⟨t, .fault f⟩ :: _ => some (max now t, .failed (.readFailure f))
  | ⟨_, .bytes []⟩ :: rest => first? now got rest
  | ⟨t, .bytes (x :: b)⟩ :: rest =>
    match Message.decode (got ++ x :: b) with
    | .ok (m, _) => some (max now t, .message m)
    | .error _ => first? (max now t) (got ++ x :: b) rest

section First
variable {now t : Nat} {got b : Bytes} {rest i : Inflow}

theorem first?_of_ok {m : Message} {n : Nat} (hb : b ≠ []) (h : Message.decode (got ++ b) = .ok (m, n)) :
    first? now got (⟨t, .bytes b⟩ :: rest) = some (max now t, .message m) := by
  obtain ⟨x, b, rfl⟩ := List.exists_cons_of_ne_nil hb
  rw [first?, h]

theorem first?_of_error {e : CodecFault} (hb : b ≠ []) (h : Message.decode (got ++ b) = .error e) :
    first? now got (⟨t, .bytes b⟩ :: rest) = first? (max now t) (got ++ b) rest := by
  obtain ⟨x, b, rfl⟩ := List.exists_cons_of_ne_nil hb
  rw [first?, h]

theorem Blank.first?_append {s : Inflow} (h : Blank s) (now : Nat) (got : Bytes) (i : Inflow) :
    first? now got (s ++ i) = first? now got i := by
  induction s with
  | nil => rfl
  | cons a s ih =>
    obtain ⟨t, what⟩ := a
    obtain ⟨rfl, hs⟩ := List.forall_mem_cons.mp h
    exact ih hs

theorem le_of_first? {u : Nat} {a : Heard} (h : first? now got i = some (u, a)) : now ≤ u := by
  fun_induction first? now got i with
  | case1 => cases h
  | case2 now got t rest =>
    cases h
    exact Nat.le_max_left _ _
  | case3 now got t f rest =>
    cases h
    exact Nat.le_max_left _ _
  | case4 now got t rest ih => exact ih h
  | case5 now got t x b rest m n hdec =>
    cases h
    exact Nat.le_max_left _ _
  | case6 now got t x b rest e hdec ih => exact Nat.le_trans (Nat.le_max_left _ _) (ih h)

theorem readFailure_of_first? {u : Nat} {e : RelayError} (h : first? now got i = some (u, .failed e)) :
    ∃ f, e = .readFailure f := by
  fun_induction first? now got i with
  | case1 => cases h
  | case2 => cases h
  | case3 now got t f rest =>
    cases h
    exact ⟨f, rfl⟩
  | case4 now got t rest ih => exact ih h
  | case5 => cases h
  | case6 now got t x b rest e hdec ih => exact ih h

/-- A read that finds an end or a fault has found what comes first. -/
theorem first?_of_read {room : Nat} {f : Found} (hroom : 0 < room) (h : read room now i = some f) (got : Bytes) :
    (f.what = .eof → first? now got i = some (f.time, .ended)) ∧
      ∀ g, f.what = .fault g → first? now got i = some (f.time, .failed (.readFailure g)) := by
  obtain ⟨skipped, a, rest, rfl, hs, ht⟩ := read_eq_some hroom h
  rw [hs.first?_append]
  cases ht with
  | eof t rest => exact ⟨fun _ => rfl, nofun⟩
  | fault t g rest => exact ⟨nofun, fun g' hg => by cases hg; rfl⟩
  | whole t b rest hb => exact ⟨nofun, nofun⟩
  | part t b c rest hb => exact ⟨nofun, nofun⟩

/-- A read that finds bytes has found the first message if they complete one. Otherwise it leaves that message to
    those behind it. -/
theorem first?_of_read_bytes {room : Nat} {f : Found} (hroom : 0 < room) (h : read room now i = some f)
    (hb : f.what = .bytes b) (got : Bytes) :
    (∀ m n, Message.decode (got ++ b) = .ok (m, n) → first? now got i = some (f.time, .message m)) ∧
      ∀ e, Message.decode (got ++ b) = .error e → first? now got i = first? f.time (got ++ b) f.rest := by
  obtain ⟨skipped, a, rest, rfl, hs, ht⟩ := read_eq_some hroom h
  rw [hs.first?_append]
  cases ht with
  | eof => cases hb
  | fault => cases hb
  | whole t b rest hne =>
    cases hb
    exact ⟨fun m n hdec => first?_of_ok hne hdec, fun e hdec => first?_of_error hne hdec⟩
  | part t b c rest hne =>
    cases hb
    have hne' : b ++ c ≠ [] := fun hnil => hne (List.append_eq_nil_iff.mp hnil).1
    constructor
    · intro m n hdec
      refine first?_of_ok (n := n) hne' ?_
      rw [← List.append_assoc]
      exact Message.decode_append hdec c
    · intro e hdec
      by_cases hc : c = []
      · subst hc
        rw [List.append_nil]
        exact first?_of_error hne hdec
      · -- The rest of the arrival is there at the same instant.
        have htime : max (max now t) t = max now t := Nat.max_eq_left (Nat.le_max_right _ _)
        cases hall : Message.decode (got ++ b ++ c) with
        | ok p =>
          obtain ⟨m, n⟩ := p
          rw [first?_of_ok hc hall, htime]
          rw [List.append_assoc] at hall
          exact first?_of_ok hne' hall
        | error e' =>
          rw [first?_of_error hc hall, htime, List.append_assoc]
          rw [List.append_assoc] at hall
          exact first?_of_error hne' hall

/-- Nothing is heard before the first read is answered. -/
theorem time_le_of_first? {room u : Nat} {f : Found} {a : Heard} (hroom : 0 < room) (h : read room now i = some f)
    (hfirst : first? now got i = some (u, a)) : f.time ≤ u := by
  cases hwhat : f.what with
  | eof =>
    rw [(first?_of_read hroom h got).1 hwhat] at hfirst
    cases hfirst
    exact Nat.le_refl _
  | fault g =>
    rw [(first?_of_read hroom h got).2 g hwhat] at hfirst
    cases hfirst
    exact Nat.le_refl _
  | bytes b =>
    obtain ⟨hok, herror⟩ := first?_of_read_bytes hroom h hwhat got
    cases hdec : Message.decode (got ++ b) with
    | ok p =>
      rw [hok p.1 p.2 hdec] at hfirst
      cases hfirst
      exact Nat.le_refl _
    | error e =>
      rw [herror e hdec] at hfirst
      exact le_of_first? hfirst

end First

/-! ### The bytes one by one -/

/-- The same arrivals with their bytes one by one, each at its instant. -/
def singly (i : Inflow) : Inflow :=
  i.flatMap fun a => match a.what with
    | .bytes b => b.map fun x => ⟨a.time, .bytes [x]⟩
    | _ => [a]

/-- Single bytes that arrive at the given instants. -/
def ofBytes (bs : List (Nat × UInt8)) : Inflow := bs.map fun p => ⟨p.1, .bytes [p.2]⟩

theorem Blank.singly_append {s : Inflow} (h : Blank s) (i : Inflow) : singly (s ++ i) = singly i := by
  induction s with
  | nil => rfl
  | cons a s ih =>
    obtain ⟨t, what⟩ := a
    obtain ⟨rfl, hs⟩ := List.forall_mem_cons.mp h
    exact ih hs

theorem singly_bytes (t : Nat) (b : Bytes) (rest : Inflow) :
    singly (⟨t, .bytes b⟩ :: rest) = ofBytes (b.map (t, ·)) ++ singly rest := by
  rw [singly, List.flatMap_cons, ofBytes, List.map_map]
  rfl

theorem ofBytes_append (bs cs : List (Nat × UInt8)) : ofBytes (bs ++ cs) = ofBytes bs ++ ofBytes cs := List.map_append

/-- A read takes the first bytes and leaves all others as they are. -/
theorem singly_of_read {room now : Nat} {i : Inflow} {f : Found} {b : Bytes} (hroom : 0 < room)
    (h : read room now i = some f) (hb : f.what = .bytes b) :
    ∃ t, t ≤ f.time ∧ i.singly = ofBytes (b.map (t, ·)) ++ f.rest.singly := by
  obtain ⟨skipped, a, rest, rfl, hs, ht⟩ := read_eq_some hroom h
  rw [hs.singly_append]
  cases ht with
  | eof => cases hb
  | fault => cases hb
  | whole t b rest hne =>
    cases hb
    exact ⟨t, Nat.le_max_right _ _, singly_bytes t b rest⟩
  | part t b c rest hne =>
    cases hb
    refine ⟨t, Nat.le_max_right _ _, ?_⟩
    rw [singly_bytes, singly_bytes, List.map_append, ofBytes_append, List.append_assoc]

end Inflow

namespace Reader
variable {r r' : Reader} {now t : Nat} {limit : Option Nat} {out : Option (Nat × Heard)}

/-- A message at the front of the buffer is returned at once. -/
theorem Hears.of_decode {m : Message} {used : Nat} (h : Hears limit r now r' out)
    (hdec : Message.decode r.buffer = .ok (m, used)) : out = some (now, .message m) := by
  cases h with
  | message hdec' =>
    cases hdec.symm.trans hdec'
    rfl
  | waits hdec' | givenUp hdec' | ended hdec' | failed hdec' | reads hdec' => cases hdec.symm.trans hdec'

/-- A call on a reader whose buffer holds no message returns what comes first, unless it is given up before. -/
theorem Hears.first {e : CodecFault} (h : Hears limit r now r' out) (hdec : Message.decode r.buffer = .error e) :
    out = (r.inflow.first? now r.buffer).filter fun p => limit.all (p.1 ≤ ·) := by
  -- An answer that is not too late for the limit passes the filter.
  have hpass : ∀ {u : Nat} {a : Heard}, ¬limit.any (· < u) = true →
      (some (u, a)).filter (fun p => limit.all (p.1 ≤ ·)) = some (u, a) := by
    intro u a hlim
    refine Option.filter_eq_some_iff.mpr ⟨rfl, ?_⟩
    cases limit with
    | none => rfl
    | some l =>
      have hle : u ≤ l := by simpa using hlim
      simpa using hle
  induction h generalizing e with
  | message hdec' => cases hdec.symm.trans hdec'
  | @waits r now e' _ hread =>
    have hnone := (Inflow.read_eq_none hread).first?_append now r.buffer []
    rw [List.append_nil] at hnone
    rw [hnone]
    rfl
  | givenUp _ hread hlim =>
    symm
    refine Option.filter_eq_none_iff.mpr fun p hp => ?_
    obtain ⟨u, a⟩ := p
    have hle := Inflow.time_le_of_first? (by decide) hread hp
    cases limit with
    | none => cases hlim
    | some l =>
      have hlt : l < _ := of_decide_eq_true hlim
      simp only [Option.all_some, decide_eq_true_eq]
      omega
  | ended _ hread hlim hwhat => rw [(Inflow.first?_of_read (by decide) hread _).1 hwhat, hpass hlim]
  | failed _ hread hlim hwhat => rw [(Inflow.first?_of_read (by decide) hread _).2 _ hwhat, hpass hlim]
  | @reads r r' now e' f b out _ hread hlim hwhat later ih =>
    obtain ⟨hok, herror⟩ := Inflow.first?_of_read_bytes (by decide) hread hwhat r.buffer
    cases hmore : Message.decode (r.buffer ++ b) with
    | ok p =>
      obtain ⟨m, n⟩ := p
      rw [hok m n hmore, hpass hlim]
      exact later.of_decode hmore
    | error e'' =>
      rw [herror e'' hmore]
      exact ih hmore

theorem next_first {e : CodecFault} (h : Message.decode r.buffer = .error e) :
    (r.next now limit).2 = (r.inflow.first? now r.buffer).filter fun p => limit.all (p.1 ≤ ·) :=
  (next_hears r now limit).first h

/-- A message returned is the front of the bytes that the reader had and those that it took, which had arrived by
    then. Everything behind them is left as it was. -/
theorem Hears.takes {m : Message} (h : Hears limit r now r' out) (hout : out = some (t, .message m)) : ∃ bs,
    r.inflow.singly = Inflow.ofBytes bs ++ r'.inflow.singly ∧ r.buffer ++ bs.map Prod.snd = m.encode ++ r'.buffer ∧
      ∀ p ∈ bs, p.1 ≤ t := by
  induction h with
  | message hdec =>
    cases hout
    exact ⟨[], rfl, (List.append_nil _).trans (Message.eq_encode_append_of_decode hdec),
      fun p hp => absurd hp List.not_mem_nil⟩
  | waits | givenUp | ended | failed => cases hout
  | @reads r r' now e f b out hdec hread hlim hwhat later ih =>
    obtain ⟨u, hu, hfirst⟩ := Inflow.singly_of_read (by decide) hread hwhat
    obtain ⟨bs, hrest, hbytes, hbs⟩ := ih hout
    refine ⟨b.map (u, ·) ++ bs, ?_, ?_, ?_⟩
    · rw [hfirst, hrest, Inflow.ofBytes_append, List.append_assoc]
    · have hb : (b.map (u, ·)).map Prod.snd = b := by
        rw [List.map_map]
        exact List.map_id b
      rw [List.map_append, hb, ← List.append_assoc]
      exact hbytes
    · intro p hp
      rcases List.mem_append.mp hp with hp | hp
      · obtain ⟨x, -, rfl⟩ := List.mem_map.mp hp
        exact Nat.le_trans hu (later.le_time hout)
      · exact hbs p hp

theorem next_takes {m : Message} (h : r.next now limit = (r', some (t, .message m))) : ∃ bs,
    r.inflow.singly = Inflow.ofBytes bs ++ r'.inflow.singly ∧ r.buffer ++ bs.map Prod.snd = m.encode ++ r'.buffer ∧
      ∀ p ∈ bs, p.1 ≤ t :=
  (hears_of_next h).takes rfl

end Reader
end CallRelay
