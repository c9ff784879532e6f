import CallRelay.Proofs.Transfer

/-! # Fragments

How many bytes one write takes decides in which pieces bytes are accepted and nothing else. Each byte is accepted, or
refused, as if it were written alone, so that all that is handed over can be told without looking at the writes. Nor does
it matter in which grants credit comes, as long as there is as much of it at every instant. -/

namespace CallRelay

/-! ### Bytes with their instants -/

namespace Transfer
variable {ps qs : List (Nat × Bytes)}

/-- The bytes of a list of pieces, each with the instant at which it was accepted. -/
def stamped (pieces : List (Nat × Bytes)) : List (Nat × UInt8) := pieces.flatMap fun p => p.2.map (p.1, ·)

@[simp] theorem stamped_cons (t : Nat) (b : Bytes) (ps : List (Nat × Bytes)) :
    stamped ((t, b) :: ps) = b.map (t, ·) ++ stamped ps := rfl

theorem stamped_append (ps qs : List (Nat × Bytes)) : stamped (ps ++ qs) = stamped ps ++ stamped qs :=
  List.flatMap_append

theorem stamped_before (limit : Nat) (ps : List (Nat × Bytes)) :
    stamped (before limit ps) = (stamped ps).filter (·.1 < limit) := by
  induction ps with
  | nil => rfl
  | cons p ps ih =>
    obtain ⟨t, b⟩ := p
    rw [stamped_cons, List.filter_append, ← ih, List.filter_map]
    by_cases ht : t < limit
    · have hall : b.filter ((fun p : Nat × UInt8 => decide (p.1 < limit)) ∘ (t, ·)) = b :=
        List.filter_eq_self.mpr fun _ _ => decide_eq_true ht
      have hbefore : before limit ((t, b) :: ps) = (t, b) :: before limit ps := List.filter_cons_of_pos (by simpa using ht)
      rw [hall, hbefore, stamped_cons]
    · have hnone : b.filter ((fun p : Nat × UInt8 => decide (p.1 < limit)) ∘ (t, ·)) = [] :=
        List.filter_eq_nil_iff.mpr fun _ _ hlt => ht (of_decide_eq_true hlt)
      have hbefore : before limit ((t, b) :: ps) = before limit ps := List.filter_cons_of_neg (by simpa using ht)
      rw [hnone, hbefore]
      rfl

theorem map_stamped (ps : List (Nat × Bytes)) : (stamped ps).map Prod.snd = bytesOf ps := by
  induction ps with
  | nil => rfl
  | cons p ps ih =>
    obtain ⟨t, b⟩ := p
    rw [stamped_cons, List.map_append, ih, List.map_map]
    exact congrArg (· ++ bytesOf ps) (List.map_id b)

theorem bytesOf_of_stamped (h : stamped ps = stamped qs) : bytesOf ps = bytesOf qs := by
  rw [← map_stamped ps, ← map_stamped qs, h]

theorem isEmpty_of_stamped (hps : ∀ p ∈ ps, p.2 ≠ []) : ps.isEmpty = (stamped ps).isEmpty := by
  cases ps with
  | nil => rfl
  | cons p ps =>
    obtain ⟨t, b⟩ := p
    have hb : b ≠ [] := hps (t, b) List.mem_cons_self
    simp [hb]

end Transfer

/-! ### Credit -/

namespace Outflow
variable {gs gs' : List Grant} {accepted now t u : Nat}

theorem credit_succ (h : ∀ g ∈ gs, g.time ≠ t + 1) : credit gs (t + 1) = credit gs t := by
  have hsame : gs.filter (·.time ≤ t + 1) = gs.filter (·.time ≤ t) := by
    refine List.filter_congr fun g hg => decide_eq_decide.mpr ?_
    have hne := h g hg
    omega
  rw [credit, hsame, credit]

/-- Credit that comes up to `u` comes with a grant. -/
theorem grant_of_credit (hnow : ¬accepted < credit gs now) (hle : now ≤ u) (hu : accepted < credit gs u) :
    ∃ g ∈ gs, now < g.time ∧ g.time ≤ u ∧ accepted < credit gs g.time := by
  induction hle with
  | refl => exact absurd hu hnow
  | @step u hle ih =>
    replace hle : now ≤ u := hle
    by_cases hgrant : ∃ g ∈ gs, g.time = u + 1
    · obtain ⟨g, hg, htime⟩ := hgrant
      exact ⟨g, hg, by omega, Nat.le_of_eq htime, htime ▸ hu⟩
    · have hsame : credit gs (u + 1) = credit gs u := credit_succ fun g hg htime => hgrant ⟨g, hg, htime⟩
      obtain ⟨g, hg, hlt, hge, hcredit⟩ := ih (hsame ▸ hu)
      exact ⟨g, hg, hlt, Nat.le_succ_of_le hge, hcredit⟩

/-- A write is let through at the first instant at which there is credit for it. -/
theorem opensAt_eq_some_iff : opensAt gs accepted now = some t ↔
    now ≤ t ∧ accepted < credit gs t ∧ ∀ u, now ≤ u → accepted < credit gs u → t ≤ u := by
  unfold opensAt
  by_cases hnow : accepted < credit gs now
  · rw [if_pos hnow]
    constructor
    · rintro ⟨⟩
      exact ⟨Nat.le_refl _, hnow, fun u hle _ => hle⟩
    · rintro ⟨hle, -, hfirst⟩
      rw [Nat.le_antisymm hle (hfirst now (Nat.le_refl _) hnow)]
  · rw [if_neg hnow, List.min?_eq_some_iff]
    simp only [List.mem_filter, List.mem_map, Bool.and_eq_true, decide_eq_true_eq]
    constructor
    · rintro ⟨⟨-, hlt, hcredit⟩, hleast⟩
      refine ⟨Nat.le_of_lt hlt, hcredit, fun u hle hu => ?_⟩
      obtain ⟨g, hg, hlt', hge, hcredit'⟩ := grant_of_credit hnow hle hu
      exact Nat.le_trans (hleast _ ⟨⟨g, hg, rfl⟩, hlt', hcredit'⟩) hge
    · rintro ⟨hle, hcredit, hfirst⟩
      obtain ⟨g, hg, hlt, hge, hcredit'⟩ := grant_of_credit hnow hle hcredit
      have htime : g.time = t := Nat.le_antisymm hge (hfirst _ (Nat.le_of_lt hlt) hcredit')
      refine ⟨⟨⟨g, hg, htime⟩, htime ▸ hlt, hcredit⟩, ?_⟩
      rintro u ⟨-, hlt', hcredit''⟩
      exact hfirst u (Nat.le_of_lt hlt') hcredit''

theorem opensAt_congr (h : ∀ t, credit gs t = credit gs' t) (accepted now : Nat) :
    opensAt gs accepted now = opensAt gs' accepted now := by
  ext t
  simp only [opensAt_eq_some_iff, h]

end Outflow

/-! ### One byte at a time -/

/-- Whether a write has been a success; if it accepts nothing it has not. -/
def Taken.verdict : Taken → Except Fault Unit
  | fault f => .error f
  | bytes 0 => .error FaultKind.writeZero.fault
  | bytes (_ + 1) => .ok ()

namespace Outflow

/-- When the byte behind `accepted` others is accepted, or when and how the connection fails instead. -/
def nextByte (o : Outflow) (accepted now : Nat) : Option (Nat × Except Fault Unit) :=
  match o.broken? ⟨accepted, 0⟩ with
  | some (.fault f) => some (now + o.breakDelay, .error f)
  | some .zero => some (now + o.breakDelay, .error FaultKind.writeZero.fault)
  | none =>
    match o.grants with
    | none => some (now, .ok ())
    | some gs => (opensAt gs accepted now).map (·, .ok ())

/-- The bytes handed over one by one, behind `accepted` others: which are accepted and when, and how that ends. -/
def trickle (o : Outflow) (accepted : Nat) : Bytes → Nat → List (Nat × UInt8) × Delivery
  | [], now => ([], .done now)
  | x :: b, now =>
    match o.nextByte accepted now with
    | none => ([], .stuck)
    | some (t, .error f) => ([], .failed t f)
    | some (t, .ok _) => ((t, x) :: (trickle o (accepted + 1) b t).1, (trickle o (accepted + 1) b t).2)

/-- Every write takes a byte, if the connection takes one at all. -/
def Takes (most : Nat → Nat) : Prop := ∀ n, 1 ≤ most n

section Write
variable {o : Outflow} {m : Mark} {n now t c accepted : Nat} {gs : List Grant}

theorem lt_credit_of_opensAt (h : opensAt gs accepted now = some t) : accepted < credit gs t :=
  (opensAt_eq_some_iff.mp h).2.1

theorem untilBreak_pos (hbroken : o.broken? m = none) (hn : 0 < n) : 0 < o.untilBreak m n := by
  unfold broken? at hbroken
  unfold untilBreak
  split
  · exact hn
  · next k how hbreaks =>
    simp only [hbreaks] at hbroken
    split at hbroken
    · cases hbroken
    · omega

theorem verdict_of_pos (hc : 0 < c) : (Taken.bytes c).verdict = .ok () := by
  obtain ⟨c, rfl⟩ := Nat.exists_eq_succ_of_ne_zero (Nat.ne_of_gt hc)
  rfl

/-- A write goes the way of its first byte. -/
theorem nextByte_eq (hmost : Takes o.most) (hn : 0 < n) :
    o.nextByte m.accepted now = (o.write m n now).map fun w => (w.1, w.2.verdict) := by
  unfold nextByte write
  have hsame : o.broken? ⟨m.accepted, 0⟩ = o.broken? m := rfl
  rw [hsame]
  cases hbroken : o.broken? m with
  | some how => cases how <;> rfl
  | none =>
    have huntil := untilBreak_pos hbroken hn
    have htaken := hmost m.writes
    cases o.grants with
    | none =>
      simp only [Option.map_some]
      rw [verdict_of_pos (by omega)]
    | some gs =>
      cases hopen : opensAt gs m.accepted now with
      | none => simp only [hopen, Option.map_none]
      | some t =>
        have hcredit := lt_credit_of_opensAt hopen
        simp only [hopen, Option.map_some]
        rw [verdict_of_pos (by omega)]

/-- The bytes that one write accepts would have been accepted one by one at the same instant. -/
theorem nextByte_of_write {i : Nat} (h : o.write m n now = some (t, .bytes c)) (hi : i < c) :
    o.nextByte (m.accepted + i) t = some (t, .ok ()) := by
  unfold write at h
  split at h
  · cases h
  · cases h
    exact absurd hi (Nat.not_lt_zero i)
  · next hbroken =>
    have hstill : c ≤ o.untilBreak m n → o.broken? ⟨m.accepted + i, 0⟩ = none := by
      intro hc
      unfold broken? at hbroken ⊢
      unfold untilBreak at hc
      cases hbreaks : o.breaks with
      | none => rfl
      | some b =>
        obtain ⟨k, how⟩ := b
        simp only [hbreaks] at hc ⊢
        rw [if_neg (by omega)]
    unfold nextByte
    simp only at h
    cases hgrants : o.grants with
    | none =>
      simp only [hgrants] at h
      cases h
      simp only [hstill (Nat.min_le_left _ _)]
    | some gs =>
      simp only [hgrants] at h
      obtain ⟨t', hopen, heq⟩ := Option.map_eq_some_iff.mp h
      cases heq
      have hcredit := lt_credit_of_opensAt hopen
      have hnow : opensAt gs (m.accepted + i) t = some t := by
        unfold opensAt
        rw [if_pos (by omega)]
      simp only [hstill (by omega), hnow, Option.map_some]

end Write

section Trickle
variable {o : Outflow} {now t accepted : Nat} {x : UInt8} {b c : Bytes}

theorem nextByte_again (h : o.nextByte accepted now = some (t, .ok ())) : o.nextByte accepted t = some (t, .ok ()) := by
  unfold nextByte at h ⊢
  split at h
  · cases h
  · cases h
  · next hbroken =>
    cases hgrants : o.grants with
    | none => rfl
    | some gs =>
      simp only [hgrants] at h
      obtain ⟨t', hopen, heq⟩ := Option.map_eq_some_iff.mp h
      cases heq
      have hnow : opensAt gs accepted t = some t := by
        unfold opensAt
        rw [if_pos (lt_credit_of_opensAt hopen)]
      simp only [hnow, Option.map_some]

theorem trickle_of_none (hb : b ≠ []) (h : o.nextByte accepted now = none) : o.trickle accepted b now = ([], .stuck) := by
  obtain ⟨x, b, rfl⟩ := List.exists_cons_of_ne_nil hb
  rw [trickle, h]

theorem trickle_of_error {f : Fault} (hb : b ≠ []) (h : o.nextByte accepted now = some (t, .error f)) :
    o.trickle accepted b now = ([], .failed t f) := by
  obtain ⟨x, b, rfl⟩ := List.exists_cons_of_ne_nil hb
  rw [trickle, h]

theorem trickle_from (hb : b ≠ []) (h : o.nextByte accepted now = some (t, .ok ())) :
    o.trickle accepted b now = o.trickle accepted b t := by
  obtain ⟨x, b, rfl⟩ := List.exists_cons_of_ne_nil hb
  rw [trickle, trickle, h, nextByte_again h]

theorem trickle_append (h : ∀ i < c.length, o.nextByte (accepted + i) t = some (t, .ok ())) :
    o.trickle accepted (c ++ b) t =
      (c.map (t, ·) ++ (o.trickle (accepted + c.length) b t).1, (o.trickle (accepted + c.length) b t).2) := by
  induction c generalizing accepted with
  | nil => rfl
  | cons x c ih =>
    have hfirst : o.nextByte accepted t = some (t, .ok ()) := h 0 (Nat.zero_lt_succ _)
    have hlater := @ih (accepted + 1) fun i hi => by
      rw [Nat.add_assoc, Nat.add_comm 1]
      exact h (i + 1) (Nat.succ_lt_succ hi)
    rw [Nat.add_assoc, Nat.add_comm 1, ← List.length_cons (a := x)] at hlater
    rw [List.cons_append, trickle, hfirst]
    simp only [hlater]
    rfl

end Trickle

/-! ### Whole transfers -/

/-- Bytes are handed over as if they were written one by one. -/
theorem send_eq_trickle (o : Outflow) (hmost : Takes o.most) (m : Mark) (b : Bytes) (now : Nat) :
    (Transfer.stamped (o.send m b now).pieces, (o.send m b now).ending) = o.trickle m.accepted b now := by
  have hfirst : ∀ (m : Mark) (now : Nat) {b : Bytes}, b ≠ [] →
      o.nextByte m.accepted now = (o.write m b.length now).map fun w => (w.1, w.2.verdict) :=
    fun _ _ _ hb => nextByte_eq hmost (List.length_pos_iff.mpr hb)
  fun_induction Outflow.send o m b now with
  | case1 m now => rfl
  | case2 m b now hb hw =>
    have hnext := hfirst m now hb
    rw [hw] at hnext
    exact (trickle_of_none hb hnext).symm
  | case3 m b now hb t f hw | case4 m b now hb t hw =>
    have hnext := hfirst m now hb
    rw [hw] at hnext
    exact (trickle_of_error hb hnext).symm
  | case5 m b now hb t n hw hn later ih =>
    have hnext := hfirst m now hb
    rw [hw, Option.map_some, verdict_of_pos (Nat.pos_of_ne_zero hn)] at hnext
    have hlen : (b.take n).length = n := List.length_take_of_le (taken_le hw)
    have hall : ∀ i < (b.take n).length, o.nextByte (m.accepted + i) t = some (t, .ok ()) := by
      intro i hi
      rw [hlen] at hi
      exact nextByte_of_write hw hi
    have hsplit := trickle_append (b := b.drop n) hall
    rw [List.take_append_drop, hlen, ← ih] at hsplit
    rw [trickle_from hb hnext, hsplit]
    rfl

/-- Two connections that differ only in how many bytes a write takes, at least one by either, and in the grants that make up
    their credit. -/
structure Refragments (o o' : Outflow) : Prop where
  takes : Takes o.most
  takes' : Takes o'.most
  credit : ∀ t, o.grants.map (credit · t) = o'.grants.map (credit · t)
  breaks : o.breaks = o'.breaks
  breakDelay : o.breakDelay = o'.breakDelay
  shutdown : o.shutdown = o'.shutdown
  shutdownDelay : o.shutdownDelay = o'.shutdownDelay

namespace Refragments
variable {o o' : Outflow}

theorem nextByte (h : o.Refragments o') (accepted now : Nat) : o.nextByte accepted now = o'.nextByte accepted now := by
  have hbroken : o.broken? ⟨accepted, 0⟩ = o'.broken? ⟨accepted, 0⟩ := by rw [broken?, broken?, h.breaks]
  have hcredit := h.credit
  unfold Outflow.nextByte
  rw [hbroken, h.breakDelay]
  cases hgs : o.grants with
  | none =>
    cases hgs' : o'.grants with
    | none => rfl
    | some gs' => simp [hgs, hgs'] at hcredit
  | some gs =>
    cases hgs' : o'.grants with
    | none => simp [hgs, hgs'] at hcredit
    | some gs' =>
      simp only [hgs, hgs', Option.map_some, Option.some.injEq] at hcredit
      simp only [opensAt_congr hcredit]

theorem trickle (h : o.Refragments o') (accepted : Nat) (b : Bytes) (now : Nat) :
    o.trickle accepted b now = o'.trickle accepted b now := by
  induction b generalizing accepted now with
  | nil => rfl
  | cons x b ih => simp only [Outflow.trickle, h.nextByte, ih]

/-- The same bytes are accepted at the same instants, and handing over ends alike. -/
theorem send (h : o.Refragments o') {m m' : Mark} (hm : m.accepted = m'.accepted) (b : Bytes) (now : Nat) :
    Transfer.stamped (o.send m b now).pieces = Transfer.stamped (o'.send m' b now).pieces ∧
      (o.send m b now).ending = (o'.send m' b now).ending ∧
        (o.send m b now).mark.accepted = (o'.send m' b now).mark.accepted := by
  have ho := o.send_eq_trickle h.takes m b now
  have ho' := o'.send_eq_trickle h.takes' m' b now
  rw [← h.trickle, ← hm, ← ho] at ho'
  obtain ⟨hstamped, hending⟩ := Prod.mk.inj ho'
  refine ⟨hstamped.symm, hending.symm, ?_⟩
  rw [send_mark, send_mark, Transfer.markAfter, Transfer.markAfter, hm, Transfer.bytesOf_of_stamped hstamped]

end Refragments
end Outflow
end CallRelay
