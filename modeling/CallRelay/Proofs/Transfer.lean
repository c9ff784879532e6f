import CallRelay.Outflow
import CallRelay.Proofs.Timely

/-! # Handing over bytes

However writes are cut, held up and broken off, the pieces accepted are the bytes handed over, in order,
from the first on: all of them if handing over is done, and fewer otherwise. Cutting it off at an instant
by which it is not done leaves fewer too. -/

namespace CallRelay

/-- `a` is `b` cut short. -/
def IsCut (a b : Bytes) : Prop := a <+: b ∧ a ≠ b

theorem isCut_nil {b : Bytes} (h : b ≠ []) : IsCut [] b := ⟨List.nil_prefix, h.symm⟩

theorem IsCut.append_left {a b : Bytes} (h : IsCut a b) (c : Bytes) : IsCut (c ++ a) (c ++ b) :=
  ⟨(List.prefix_append_right_inj c).mpr h.1, fun he => h.2 (List.append_cancel_left he)⟩

namespace Outflow

theorem le_of_opensAt {gs : List Grant} {accepted now t : Nat} (h : opensAt gs accepted now = some t) : now ≤ t := by
  unfold opensAt at h
  split at h
  · cases h
    exact Nat.le_refl _
  · have hmem := (List.mem_filter.mp (List.min?_mem h)).2
    simp only [Bool.and_eq_true, decide_eq_true_eq] at hmem
    omega

theorem untilBreak_le (o : Outflow) (m : Mark) (offered : Nat) : o.untilBreak m offered ≤ offered := by
  unfold untilBreak
  split
  · exact Nat.le_refl _
  · exact Nat.min_le_left _ _

theorem le_time_of_write {o : Outflow} {m : Mark} {offered now t : Nat} {k : Taken}
    (h : o.write m offered now = some (t, k)) : now ≤ t := by
  unfold write at h
  split at h
  · cases h
    exact Nat.le_add_right _ _
  · cases h
    exact Nat.le_add_right _ _
  · simp only at h
    split at h
    · cases h
      exact Nat.le_refl _
    · obtain ⟨t', ht, heq⟩ := Option.map_eq_some_iff.mp h
      cases heq
      exact le_of_opensAt ht

theorem taken_le {o : Outflow} {m : Mark} {offered now t n : Nat} (h : o.write m offered now = some (t, .bytes n)) :
    n ≤ offered := by
  have hbreak := o.untilBreak_le m offered
  unfold write at h
  split at h
  · cases h
  · cases h
    exact Nat.zero_le _
  · simp only at h
    split at h
    · cases h
      omega
    · obtain ⟨t', -, heq⟩ := Option.map_eq_some_iff.mp h
      cases heq
      omega

end Outflow

/-! ### The course of a transfer -/

/-- The pieces in which bytes are accepted from an instant on, and how that ends. -/
inductive Delivers : Bytes → Nat → List (Nat × Bytes) → Delivery → Prop
  | done (now : Nat) : Delivers [] now [] (.done now)
  | failed {b : Bytes} {now t : Nat} (f : Fault) (hb : b ≠ []) (ht : now ≤ t) : Delivers b now [] (.failed t f)
  | stuck {b : Bytes} {now : Nat} (hb : b ≠ []) : Delivers b now [] .stuck
  | piece {c b : Bytes} {now t : Nat} {ps : List (Nat × Bytes)} {e : Delivery} (hc : c ≠ []) (ht : now ≤ t)
      (later : Delivers b t ps e) : Delivers (c ++ b) now ((t, c) :: ps) e

theorem send_delivers (o : Outflow) (m : Mark) (b : Bytes) (now : Nat) :
    Delivers b now (o.send m b now).pieces (o.send m b now).ending := by
  fun_induction Outflow.send o m b now with
  | case1 m now => exact .done now
  | case2 m b now hb hw => exact .stuck hb
  | case3 m b now hb t f hw => exact .failed f hb (Outflow.le_time_of_write hw)
  | case4 m b now hb t hw => exact .failed _ hb (Outflow.le_time_of_write hw)
  | case5 m b now hb t n hw hn later ih =>
    have hpiece : Delivers (b.take n ++ b.drop n) now ((t, b.take n) :: later.pieces) later.ending := by
      refine .piece (fun hnil => ?_) (Outflow.le_time_of_write hw) ih
      rcases List.take_eq_nil_iff.mp hnil with h | h
      · exact hn h
      · exact hb h
    rwa [List.take_append_drop] at hpiece

theorem Transfer.markAfter_append (m : Mark) (ps qs : List (Nat × Bytes)) :
    Transfer.markAfter m (ps ++ qs) = Transfer.markAfter (Transfer.markAfter m ps) qs := by
  simp only [Transfer.markAfter, Transfer.bytesOf, List.flatMap_append, List.length_append, Nat.add_assoc]

theorem send_mark (o : Outflow) (m : Mark) (b : Bytes) (now : Nat) :
    (o.send m b now).mark = Transfer.markAfter m (o.send m b now).pieces := by
  fun_induction Outflow.send o m b now with
  | case1 => rfl
  | case2 => rfl
  | case3 => rfl
  | case4 => rfl
  | case5 m b now hb t n hw hn later ih =>
    have hlen : (b.take n).length = n := List.length_take_of_le (Outflow.taken_le hw)
    show later.mark = Transfer.markAfter m ((t, b.take n) :: later.pieces)
    rw [ih]
    simp only [Transfer.markAfter, Transfer.bytesOf, List.flatMap_cons, List.length_append, List.length_cons, hlen,
      Nat.add_assoc, Nat.add_comm 1, later]

namespace Delivers
variable {b : Bytes} {now : Nat} {ps : List (Nat × Bytes)} {e : Delivery}

theorem timely (h : Delivers b now ps e) : Timely now ps := by
  induction h with
  | done => exact .nil
  | failed => exact .nil
  | stuck => exact .nil
  | piece hc ht later ih => exact ih.cons ht

theorem pieces_ne_nil (h : Delivers b now ps e) : ∀ p ∈ ps, p.2 ≠ [] := by
  induction h with
  | piece hc ht later ih => exact List.forall_mem_cons.mpr ⟨hc, ih⟩
  | _ => exact nofun

/-- The instant at which a transfer ends comes behind its pieces. -/
theorem le_ending {t : Nat} (h : Delivers b now ps e) (he : e = .done t ∨ ∃ f, e = .failed t f) :
    now ≤ t ∧ ∀ p ∈ ps, p.1 ≤ t := by
  induction h with
  | done now =>
    rcases he with he | ⟨f, he⟩ <;> cases he
    exact ⟨Nat.le_refl _, nofun⟩
  | failed f hb ht =>
    rcases he with he | ⟨f, he⟩ <;> cases he
    exact ⟨ht, nofun⟩
  | stuck => rcases he with he | ⟨f, he⟩ <;> cases he
  | piece hc ht later ih =>
    obtain ⟨hle, hall⟩ := ih he
    exact ⟨Nat.le_trans ht hle, List.forall_mem_cons.mpr ⟨hle, hall⟩⟩

/-- A transfer that is done ends with its last piece. -/
theorem getLastD_of_done {t : Nat} (h : Delivers b now ps e) (he : e = .done t) : (ps.map Prod.fst).getLastD now = t := by
  induction h with
  | done now => cases he; rfl
  | failed => cases he
  | stuck => cases he
  | piece hc ht later ih => rw [List.map_cons, List.getLastD_cons, ih he]

/-- A transfer that ends before an instant is not cut off there. -/
theorem before_eq {t limit : Nat} (h : Delivers b now ps e) (he : e = .done t ∨ ∃ f, e = .failed t f) (ht : t < limit) :
    Transfer.before limit ps = ps :=
  List.filter_eq_self.mpr fun q hq => decide_eq_true (Nat.lt_of_le_of_lt ((h.le_ending he).2 q hq) ht)

theorem bytesOf_of_done {t : Nat} (h : Delivers b now ps e) (he : e = .done t) : Transfer.bytesOf ps = b := by
  induction h with
  | done => rfl
  | failed => cases he
  | stuck => cases he
  | piece hc ht later ih => exact congrArg (_ ++ ·) (ih he)

theorem isCut_of_not_done (h : Delivers b now ps e) (he : ∀ t, e ≠ .done t) : IsCut (Transfer.bytesOf ps) b := by
  induction h with
  | done now => exact absurd rfl (he now)
  | failed f hb => exact isCut_nil hb
  | stuck hb => exact isCut_nil hb
  | piece hc ht later ih => exact (ih he).append_left _

theorem eq_done (h : Delivers b now ps e) (hb : b = []) : e = .done now := by
  cases h with
  | done => rfl
  | failed f hne => exact absurd hb hne
  | stuck hne => exact absurd hb hne
  | piece hc => exact absurd (List.append_eq_nil_iff.mp hb).1 hc

theorem before_bytes (h : Delivers b now ps e) (limit : Nat) : Transfer.bytesOf (Transfer.before limit ps) <+: b := by
  have hbytes : Transfer.bytesOf ps <+: b := by
    cases e with
    | done t => exact h.bytesOf_of_done rfl ▸ List.prefix_rfl
    | failed t f => exact (h.isCut_of_not_done nofun).1
    | stuck => exact (h.isCut_of_not_done nofun).1
  obtain ⟨rest, hrest⟩ := h.timely.before_front limit
  refine List.IsPrefix.trans ⟨Transfer.bytesOf rest, ?_⟩ hbytes
  rw [Transfer.bytesOf, Transfer.bytesOf, ← List.flatMap_append]
  exact congrArg Transfer.bytesOf hrest

/-- Before an instant by which it is not done, a transfer is cut short. -/
theorem before_isCut (h : Delivers b now ps e) (hb : b ≠ []) {limit : Nat} (he : ∀ t, e = .done t → limit ≤ t) :
    IsCut (Transfer.bytesOf (Transfer.before limit ps)) b := by
  induction h with
  | done => exact absurd rfl hb
  | failed f hb => exact isCut_nil hb
  | stuck hb => exact isCut_nil hb
  | @piece c b now t ps e hc ht later ih =>
    by_cases hlt : t < limit
    · have hbefore : Transfer.before limit ((t, c) :: ps) = (t, c) :: Transfer.before limit ps :=
        List.filter_cons_of_pos (by simpa using hlt)
      have hb' : b ≠ [] := fun hnil => by
        -- Without further bytes the transfer would be done at once.
        subst hnil
        exact absurd (he t (later.eq_done rfl)) (Nat.not_le_of_lt hlt)
      rw [hbefore]
      exact (ih hb' he).append_left c
    · have hnil : Transfer.before limit ((t, c) :: ps) = [] :=
        (Timely.cons (Nat.le_refl t) later.timely).before_eq_nil (Nat.le_of_not_lt hlt)
      rw [hnil]
      exact isCut_nil hb

end Delivers
end CallRelay
