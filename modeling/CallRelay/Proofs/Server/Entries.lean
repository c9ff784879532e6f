import CallRelay.Proofs.Server.Steps

/-! # Entries of calls

An entry is put into the registry when its call registers, and it belongs to that call until the call has left, which a
call that panics does not. A call keeps its entry unless another call registers under the same identity, or leaves with
the same identity and the same address. -/

namespace CallRelay
namespace Calls
variable {s t : Calls} {x : CallStep} {xs : List CallStep} {n : Nat} {id : Identity}

/-- Call `n` is the one that the registry has under `id`. -/
def Holds (s : Calls) (n : Nat) (id : Identity) : Prop := ∃ e, s.registry.get? id = some e ∧ e.call = n

/-- Steps of other calls that take the entry under `id` from call `n`. -/
inductive Ousts (s : Calls) (n : Nat) (id : Identity) : CallStep → Prop
  | register {m : Nat} {c : Call} (now : Nat) (hm : m ≠ n) (hc : s.calls[m]? = some c) (hp : c.phase = .identified id) :
      Ousts s n id (.register m now)
  | unregister {m : Nat} {c d : Call} (hm : m ≠ n) (hc : s.calls[m]? = some c) (hp : c.phase = .leaving id)
      (hd : s.calls[n]? = some d) (hpeer : d.peer = c.peer) : Ousts s n id (.unregister m)

/-- In the course of these steps, the entry under `id` is taken from call `n`. -/
def Ousted (xs : List CallStep) (n : Nat) (id : Identity) : Prop :=
  ∃ front x rest s, xs = front ++ x :: rest ∧ ({} : Calls).steps front = some s ∧ s.Holds n id ∧ s.Ousts n id x

theorem Ousted.append (h : Ousted xs n id) (ys : List CallStep) : Ousted (xs ++ ys) n id := by
  obtain ⟨front, x, rest, s, rfl, hs⟩ := h
  exact ⟨front, x, rest ++ ys, s, by rw [List.append_assoc, List.cons_append], hs⟩

/-- Only another call of the same identity ousts a call. -/
theorem Ousted.shared (h : Ousted xs n id) : ∃ m, m ≠ n ∧ .identify m id ∈ xs := by
  obtain ⟨front, x, rest, s, rfl, hs, -, hout⟩ := h
  have hleads := leads_iff.mpr hs
  cases hout with
  | register now hm hc hp =>
    exact ⟨_, hm, List.mem_append_left _ (hleads.announced hc (congrArg CallPhase.identity? hp))⟩
  | unregister hm hc hp =>
    exact ⟨_, hm, List.mem_append_left _ (hleads.announced hc (congrArg CallPhase.identity? hp))⟩

/-- An entry after a step was there before, or its call has just registered. -/
theorem Goes.entry (h : s.Goes x t) {e : Entry} (he : t.registry.get? id = some e) : s.registry.get? id = some e ∨
    ∃ now c, x = .register e.call now ∧ s.calls[e.call]? = some c ∧ c.phase = .identified id ∧ c.peer = e.peer := by
  cases h with
  | @register n c id' now hc hp =>
    by_cases hid : id = id'
    · subst hid
      cases (Registry.get?_insert s.registry id ⟨n, c.peer, now⟩).symm.trans he
      exact Or.inr ⟨now, c, rfl, hc, hp, rfl⟩
    · exact Or.inl ((Registry.get?_insert_of_ne _ _ hid).symm.trans he)
  | @unregister n c id' hc hp =>
    have he : (s.registry.eraseOf id' c.peer).get? id = some e := he
    rw [Registry.get?_eraseOf] at he
    split at he
    · cases he
    · exact Or.inl he
  | accept | identify | reject | check | finish | crash | raise | visit | settle | stopListening | leave => exact Or.inl he

/-- Each entry belongs to a call that has registered under its identity and has not left. -/
theorem Leads.entry (h : Leads xs s) {e : Entry} (he : s.registry.get? id = some e) :
    ∃ c, s.calls[e.call]? = some c ∧ c.peer = e.peer ∧ c.phase.entered? = some id := by
  induction h generalizing e with
  | nil => cases he
  | @concat xs x s t hs hx ih =>
    have hx := step_goes hx
    rcases hx.entry he with hold | ⟨now, c, rfl, hc, hp, hpeer⟩
    · obtain ⟨c, hc, hpeer, hin⟩ := ih hold
      obtain ⟨d, hd, hb⟩ := hx.kept hc
      refine ⟨d, hd, hb.peer.trans hpeer, ?_⟩
      rcases hb.entered hin with hin | ⟨rfl, hp, -⟩
      · exact hin
      · -- The call that leaves takes its own entry along.
        exfalso
        cases hx with
        | @unregister _ c' id' hc' hp' =>
          cases hc.symm.trans hc'
          cases hp.symm.trans hp'
          have he : (s.registry.eraseOf id c.peer).get? id = some e := he
          rw [Registry.get?_eraseOf, if_pos] at he
          · cases he
          · exact ⟨rfl, by simp [hold, hpeer]⟩
    · obtain ⟨d, hd, hb⟩ := hx.kept hc
      refine ⟨d, hd, hb.peer.trans hpeer, ?_⟩
      cases hb with
      | stays hne => exact absurd rfl hne
      | registered now' hp' =>
        cases hp.symm.trans hp'
        rfl

/-- A call keeps its entry until it leaves, unless it is ousted. -/
theorem Leads.holds_or_ousts (h : Leads xs s) (hx : s.Goes x t) (hn : s.Holds n id) :
    t.Holds n id ∨ s.Ousts n id x ∨ x = .unregister n := by
  obtain ⟨e, he, rfl⟩ := hn
  cases hx with
  | @register m c id' now hc hp =>
    by_cases hid : id = id'
    · subst hid
      by_cases hm : m = e.call
      · exact Or.inl ⟨_, Registry.get?_insert _ _ _, hm⟩
      · exact Or.inr (Or.inl (.register now hm hc hp))
    · exact Or.inl ⟨e, (Registry.get?_insert_of_ne _ _ hid).trans he, rfl⟩
  | @unregister m c id' hc hp =>
    by_cases hm : m = e.call
    · exact Or.inr (Or.inr (hm ▸ rfl))
    · by_cases hcase : id = id' ∧ (s.registry.get? id').any (·.peer = c.peer)
      · obtain ⟨rfl, hany⟩ := hcase
        obtain ⟨d, hd, hpeer, -⟩ := h.entry he
        rw [he] at hany
        have hsame : e.peer = c.peer := of_decide_eq_true hany
        exact Or.inr (Or.inl (.unregister hm hc hp hd (hpeer.trans hsame)))
      · refine Or.inl ⟨e, ?_, rfl⟩
        exact ((Registry.get?_eraseOf _ _ _ _).trans (if_neg hcase)).trans he
  | accept | identify | reject | check | finish | crash | raise | visit | settle | stopListening | leave =>
    exact Or.inl ⟨e, he, rfl⟩

theorem Goes.holds_of_register {now : Nat} {c : Call} (h : s.Goes (.register n now) t) (hc : s.calls[n]? = some c)
    (hp : c.phase = .identified id) : t.Holds n id := by
  cases h with
  | register _ hc' hp' =>
    cases hc.symm.trans hc'
    cases hp.symm.trans hp'
    exact ⟨_, Registry.get?_insert _ _ _, rfl⟩

/-- A registered call has its entry, or it has been ousted. -/
theorem Leads.holds_or_ousted (h : Leads xs s) {c : Call} (hc : s.calls[n]? = some c) (hin : c.phase.entered? = some id) :
    s.Holds n id ∨ Ousted xs n id := by
  induction h generalizing c with
  | nil => cases hc
  | @concat xs x s t hs hx ih =>
    have hx := step_goes hx
    rcases hx.becomes hc with ⟨b, hb, hbc⟩ | ⟨-, hp⟩
    · rcases hbc.entering hin with hbin | ⟨hp, now, rfl⟩
      · rcases ih hb hbin with hholds | hout
        · rcases hs.holds_or_ousts hx hholds with hkeeps | hout | rfl
          · exact Or.inl hkeeps
          · exact Or.inr ⟨xs, x, [], s, rfl, leads_iff.mp hs, hholds, hout⟩
          · cases hbc with
            | stays hne => exact absurd rfl hne
            | unregistered hp => cases hin
        · exact Or.inr (hout.append [x])
      · exact Or.inl (hx.holds_of_register hb hp)
    · rw [hp] at hin
      cases hin

end Calls
end CallRelay
