import CallRelay.Proofs.Server.Shutdown
import Mathlib.Data.List.Nodup

/-! # Who is in the registry

An entry is that of a call which has registered and has not left: a call in progress, or one whose session has
panicked. As long as no two of the calls come from one address, a call takes no other call's entry along when
it ends: only a later call of the same identity takes it over. When all calls have ended, and they have when
serving has returned, only those that have panicked are left in the registry. -/

namespace CallRelay
namespace Registry
variable {r : Registry} {id : Identity} {e : Entry}

/-- No identity has two entries. -/
def Keyed (r : Registry) : Prop := r.identities.Nodup

theorem Keyed.mem_entries_iff (h : r.Keyed) : (id, e) ∈ r.entries ↔ r.get? id = some e := by
  rw [get?, Option.map_eq_some_iff]
  constructor
  · intro hmem
    have hsome : (r.entries.find? (·.1 = id)).isSome := List.find?_isSome.mpr ⟨(id, e), hmem, decide_eq_true rfl⟩
    obtain ⟨p, hp⟩ := Option.isSome_iff_exists.mp hsome
    have hid := List.find?_some hp
    obtain rfl := List.inj_on_of_nodup_map h (List.mem_of_find?_eq_some hp) hmem (of_decide_eq_true hid)
    exact ⟨_, hp, rfl⟩
  · rintro ⟨⟨id', e'⟩, hp, rfl⟩
    have hid := List.find?_some hp
    obtain rfl : id' = id := of_decide_eq_true hid
    exact List.mem_of_find?_eq_some hp

theorem Keyed.erase (h : r.Keyed) (id : Identity) : (r.erase id).Keyed :=
  (List.filter_sublist.map Prod.fst).nodup h

theorem Keyed.insert (h : r.Keyed) (id : Identity) (e : Entry) : (r.insert id e).Keyed := by
  refine List.nodup_cons.mpr ⟨fun hmem => ?_, h.erase id⟩
  obtain ⟨p, hp, hid⟩ := List.mem_map.mp hmem
  exact of_decide_eq_true (List.mem_filter.mp hp).2 hid

theorem Keyed.eraseOf (h : r.Keyed) (id : Identity) (peer : Address) : (r.eraseOf id peer).Keyed := by
  unfold Registry.eraseOf
  split
  · exact h.erase id
  · exact h

end Registry

namespace Calls
variable {s t : Calls} {x : CallStep} {xs : List CallStep} {n : Nat} {id : Identity}

/-! ### One step -/

theorem Goes.keyed (h : s.Goes x t) (hs : s.registry.Keyed) : t.registry.Keyed := by
  cases h with
  | register => exact hs.insert _ _
  | unregister => exact hs.eraseOf _ _
  | _ => exact hs

theorem Goes.registry_eq (h : s.Goes x t) (hreg : ∀ n now, x ≠ .register n now) (hun : ∀ n, x ≠ .unregister n) :
    t.registry = s.registry := by
  cases h with
  | register now => exact absurd rfl (hreg _ now)
  | unregister => exact absurd rfl (hun _)
  | _ => rfl

theorem Goes.length_eq (h : s.Goes x t) (hl : s.listening = false) : t.calls.length = s.calls.length := by
  cases h with
  | accept peer hl' => cases hl.symm.trans hl'
  | identify | reject | register | check | finish | crash | unregister | visit => exact List.length_modify _ _ _
  | raise | settle | stopListening | leave => rfl

theorem Goes.listening (h : s.Goes x t) (hl : s.listening = false) : t.listening = false := by
  cases h with
  | stopListening => rfl
  | _ => exact hl

theorem Becomes.over {stopping : Bool} {c d : Call} (h : Becomes stopping n c x d) (hc : c.phase = .over) :
    d.phase = .over := by
  cases h with
  | stays => exact hc
  | visited => exact hc
  | rejected | unregistered => rfl
  | identified _ hp | registered _ hp | checked hp | finished hp | crashed hp => cases hc.symm.trans hp

theorem Becomes.ended {stopping : Bool} {c d : Call} (h : Becomes stopping n c x d) (hc : c.phase.ended = true) :
    d.phase.ended = true := by
  cases h with
  | stays => exact hc
  | visited => exact hc
  | rejected | unregistered | crashed => rfl
  | identified _ hp | registered _ hp | checked hp | finished hp =>
    rw [hp] at hc
    cases hc

theorem Goes.ne_of_over (h : s.Goes x t) {c : Call} (hc : s.calls[n]? = some c) (hp : c.phase = .over) :
    (∀ now, x ≠ .register n now) ∧ x ≠ .unregister n := by
  constructor
  · rintro now rfl
    cases h with
    | register _ hc' hp' =>
      cases hc.symm.trans hc'
      cases hp.symm.trans hp'
  · rintro rfl
    cases h with
    | unregister hc' hp' =>
      cases hc.symm.trans hc'
      cases hp.symm.trans hp'

/-- Calls that have all ended stay so, once no further call is accepted. -/
theorem Goes.all_ended (h : s.Goes x t) (hl : s.listening = false) (hs : ∀ c ∈ s.calls, c.phase.ended = true) :
    ∀ c ∈ t.calls, c.phase.ended = true := by
  intro d hd
  obtain ⟨n, hn⟩ := List.getElem?_of_mem hd
  rcases h.becomes hn with ⟨c, hc, hb⟩ | ⟨hnone, -⟩
  · exact hb.ended (hs c (List.mem_of_getElem? hc))
  · have hlt := (List.getElem?_eq_some_iff.mp hn).1
    have hle := List.getElem?_eq_none_iff.mp hnone
    rw [h.length_eq hl] at hlt
    exact absurd hlt (Nat.not_lt_of_le hle)

/-! ### Runs -/

theorem Leads.keyed (h : Leads xs s) : s.registry.Keyed := by
  induction h with
  | nil => exact List.nodup_nil
  | concat hs hx ih => exact (step_goes hx).keyed ih

theorem Leads.over (h : Leads xs s) (hx : .reject n ∈ xs ∨ .unregister n ∈ xs) :
    ∃ c, s.calls[n]? = some c ∧ c.phase = .over := by
  induction h with
  | nil => rcases hx with hx | hx <;> cases hx
  | @concat xs y s t hs hy ih =>
    have hgoes := step_goes hy
    by_cases hbefore : .reject n ∈ xs ∨ .unregister n ∈ xs
    · obtain ⟨c, hc, hp⟩ := ih hbefore
      obtain ⟨d, hd, hb⟩ := hgoes.kept hc
      exact ⟨d, hd, hb.over hp⟩
    · have hlast : y = .reject n ∨ y = .unregister n := by
        simp only [List.mem_append, List.mem_singleton] at hx
        rcases hx with (hx | rfl) | (hx | rfl)
        · exact absurd (Or.inl hx) hbefore
        · exact Or.inl rfl
        · exact absurd (Or.inr hx) hbefore
        · exact Or.inr rfl
      rcases hlast with rfl | rfl
      · cases hgoes with
        | reject hc hp =>
          obtain ⟨d, hd, hb⟩ := (step_goes hy).kept hc
          cases hb with
          | stays hne => exact absurd rfl hne
          | rejected => exact ⟨_, hd, rfl⟩
      · cases hgoes with
        | unregister hc hp =>
          obtain ⟨d, hd, hb⟩ := (step_goes hy).kept hc
          cases hb with
          | stays hne => exact absurd rfl hne
          | unregistered => exact ⟨_, hd, rfl⟩

theorem Leads.registered (h : Leads xs s) {c : Call} (hc : s.calls[n]? = some c) (hin : c.phase.entered? = some id) :
    ∃ now, .register n now ∈ xs := by
  induction h generalizing c with
  | nil => cases hc
  | concat hs hx ih =>
    rcases (step_goes hx).becomes hc with ⟨b, hb, hbc⟩ | ⟨-, hp⟩
    · rcases hbc.entering hin with hbin | ⟨-, now, rfl⟩
      · obtain ⟨now, hmem⟩ := ih hb hbin
        exact ⟨now, List.mem_append_left _ hmem⟩
      · exact ⟨now, List.mem_append_right _ (List.mem_singleton_self _)⟩
    · rw [hp] at hin
      cases hin

/-- A call that has registered stands behind that step. -/
theorem Leads.entered_or_over (h : Leads xs s) {now : Nat} (hx : .register n now ∈ xs) :
    ∃ c, s.calls[n]? = some c ∧ ((∃ id, c.phase.entered? = some id) ∨ c.phase = .over) := by
  induction h with
  | nil => cases hx
  | @concat xs y s t hs hy ih =>
    have hgoes := step_goes hy
    rcases List.mem_append.mp hx with hx | hx
    · obtain ⟨c, hc, ⟨id, hin⟩ | hp⟩ := ih hx
      · obtain ⟨d, hd, hb⟩ := hgoes.kept hc
        rcases hb.entered hin with hin | ⟨-, -, hp⟩
        · exact ⟨d, hd, Or.inl ⟨id, hin⟩⟩
        · exact ⟨d, hd, Or.inr hp⟩
      · obtain ⟨d, hd, hb⟩ := hgoes.kept hc
        exact ⟨d, hd, Or.inr (hb.over hp)⟩
    · obtain rfl := List.mem_singleton.mp hx
      cases hgoes with
      | @register _ _ id _ hc hp =>
        obtain ⟨d, hd, hb⟩ := (step_goes hy).kept hc
        cases hb with
        | stays hne => exact absurd rfl hne
        | registered => exact ⟨_, hd, Or.inl ⟨_, rfl⟩⟩

/-- Until it is turned away or has its identity, a call takes no step that changes the registry. -/
theorem Leads.untouched (h : Leads xs s) {c : Call} (hc : s.calls[n]? = some c) (hp : c.phase = .opening) :
    (∀ now, .register n now ∉ xs) ∧ .unregister n ∉ xs := by
  refine ⟨fun now hmem => ?_, fun hmem => ?_⟩
  · obtain ⟨c', hc', hbehind⟩ := h.entered_or_over hmem
    cases hc.symm.trans hc'
    rcases hbehind with ⟨id, hin⟩ | hover
    · rw [hp] at hin
      cases hin
    · cases hp.symm.trans hover
  · obtain ⟨c', hc', hover⟩ := h.over (Or.inr hmem)
    cases hc.symm.trans hc'
    cases hp.symm.trans hover

theorem Leads.turned_away (h : Leads xs s) (hn : .reject n ∈ xs) : (∀ now, .register n now ∉ xs) ∧ .unregister n ∉ xs := by
  induction h with
  | nil => cases hn
  | @concat xs y s t hs hy ih =>
    have hgoes := step_goes hy
    have hbefore : (∀ now, .register n now ∉ xs) ∧ .unregister n ∉ xs := by
      rcases List.mem_append.mp hn with hn | hn
      · exact ih hn
      · obtain rfl := List.mem_singleton.mp hn
        cases hgoes with
        | reject hc hp => exact hs.untouched hc hp
    have hlast : (∀ now, y ≠ .register n now) ∧ y ≠ .unregister n := by
      rcases List.mem_append.mp hn with hn | hn
      · obtain ⟨c, hc, hp⟩ := hs.over (Or.inl hn)
        exact hgoes.ne_of_over hc hp
      · obtain rfl := List.mem_singleton.mp hn
        exact ⟨nofun, nofun⟩
    simp only [List.mem_append, List.mem_singleton, not_or]
    exact ⟨fun now => ⟨hbefore.1 now, (hlast.1 now).symm⟩, hbefore.2, hlast.2.symm⟩

theorem Leads.served (h : Leads xs s) (hs : s.served = true) :
    s.listening = false ∧ ∀ c ∈ s.calls, c.phase.ended = true := by
  induction h with
  | nil => cases hs
  | @concat xs x s t hs' hx ih =>
    have hgoes := step_goes hx
    by_cases hbefore : s.served = true
    · obtain ⟨hl, hall⟩ := ih hbefore
      exact ⟨hgoes.listening hl, hgoes.all_ended hl hall⟩
    · cases hgoes with
      | leave hl _ hall => exact ⟨hl, hall⟩
      | _ => exact absurd hs hbefore

/-! ### Calls from different addresses -/

/-- No two calls come from one address, those that are over apart. -/
def Apart (s : Calls) : Prop := (s.calls.filter (·.phase ≠ .over)).Pairwise fun c d => c.peer ≠ d.peer

instance (s : Calls) : Decidable s.Apart := inferInstanceAs (Decidable (List.Pairwise _ _))

theorem Apart.eq {m : Nat} {c d : Call} (h : s.Apart) (hm : s.calls[m]? = some c) (hn : s.calls[n]? = some d)
    (hc : c.phase ≠ .over) (hd : d.phase ≠ .over) (hpeer : c.peer = d.peer) : m = n := by
  obtain ⟨hmlt, rfl⟩ := List.getElem?_eq_some_iff.mp hm
  obtain ⟨hnlt, rfl⟩ := List.getElem?_eq_some_iff.mp hn
  have hpairs := List.pairwise_iff_getElem.mp (List.pairwise_filter.mp h)
  rcases Nat.lt_trichotomy m n with hlt | heq | hgt
  · exact absurd hpeer (hpairs m n hmlt hnlt hlt (decide_eq_true hc) (decide_eq_true hd))
  · exact heq
  · exact absurd hpeer.symm (hpairs n m hnlt hmlt hgt (decide_eq_true hd) (decide_eq_true hc))

/-- An entry stays until its call leaves, or another call registers under its identity. -/
theorem Leads.entry_kept (h : Leads xs s) (ha : s.Apart) (hx : s.Goes x t) {e : Entry} (he : s.registry.get? id = some e) :
    t.registry.get? id = some e ∨ x = .unregister e.call ∨
      ∃ m now c, m ≠ e.call ∧ x = .register m now ∧ s.calls[m]? = some c ∧ c.phase = .identified id := by
  obtain ⟨d, hd, hpeer, hin⟩ := h.entry he
  rcases h.holds_or_ousts hx ⟨e, he, rfl⟩ with ⟨e', he', hcall⟩ | hout | hleft
  · refine Or.inl ?_
    rcases hx.entry he' with hold | ⟨now, c, -, hc, hp, -⟩
    · obtain rfl := Option.some.inj (he.symm.trans hold)
      exact he'
    · -- The call of the entry does not register again.
      rw [hcall] at hc
      cases hd.symm.trans hc
      rw [hp] at hin
      cases hin
  · cases hout with
    | register now hm hc hp => exact Or.inr (Or.inr ⟨_, now, _, hm, rfl, hc, hp⟩)
    | @unregister m c d' hm hc hp hd' hsame =>
      cases hd.symm.trans hd'
      refine absurd (ha.eq hc hd ?_ ?_ hsame.symm) hm
      · rw [hp]
        exact nofun
      · intro hover
        rw [hover] at hin
        cases hin
  · exact Or.inr (Or.inl hleft)

/-! ### What the registry tells -/

/-- What the registry tells of the calls after the given steps. -/
structure Faithful (xs : List CallStep) (s : Calls) : Prop where
  /-- An entry is that of a call from its address and with its identity, which has registered and has neither left nor
      been turned away. -/
  own : ∀ id e, (id, e) ∈ s.registry.entries → ∃ c, s.calls[e.call]? = some c ∧ c.peer = e.peer ∧
    c.phase.entered? = some id ∧ (∃ now, .register e.call now ∈ xs) ∧ .unregister e.call ∉ xs ∧ .reject e.call ∉ xs
  /-- A call that registers has an entry. -/
  enters : ∀ n now t, s.step (.register n now) = some t → ∃ c id, s.calls[n]? = some c ∧ c.phase = .identified id ∧
    (id, ⟨n, c.peer, now⟩) ∈ t.registry.entries
  /-- No step but those two takes an entry away: its own call leaves, or another one registers under its identity. -/
  kept : s.Apart → ∀ x t id e, s.step x = some t → (id, e) ∈ s.registry.entries → (id, e) ∈ t.registry.entries ∨
    x = .unregister e.call ∨
      ∃ m now c, m ≠ e.call ∧ x = .register m now ∧ s.calls[m]? = some c ∧ c.phase = .identified id
  /-- Only registering and leaving change the registry, and a call that is turned away does neither. -/
  unchanged : (∀ x t, s.step x = some t → (∀ n now, x ≠ .register n now) → (∀ n, x ≠ .unregister n) →
      t.registry = s.registry) ∧
    ∀ n, .reject n ∈ xs → (∀ now, .register n now ∉ xs) ∧ .unregister n ∉ xs
  /-- When all calls have ended, an entry is that of a call whose session has panicked. -/
  left : (∀ c ∈ s.calls, c.phase.ended = true) → ∀ id e, (id, e) ∈ s.registry.entries →
    ∃ c, s.calls[e.call]? = some c ∧ c.phase = .crashed id ∧ .crash e.call ∈ xs
  empty : (∀ c ∈ s.calls, c.phase = .over) → s.registry.entries = []
  served : s.served = true → (∀ c ∈ s.calls, c.phase.ended = true) ∧ ((∀ c ∈ s.calls, c.phase = .over) → s.active = 0)

theorem Leads.own (h : Leads xs s) {e : Entry} (he : (id, e) ∈ s.registry.entries) : ∃ c, s.calls[e.call]? = some c ∧
    c.peer = e.peer ∧ c.phase.entered? = some id ∧ (∃ now, .register e.call now ∈ xs) ∧ .unregister e.call ∉ xs ∧
    .reject e.call ∉ xs := by
  obtain ⟨c, hc, hpeer, hin⟩ := h.entry (h.keyed.mem_entries_iff.mp he)
  have hover : ¬(.reject e.call ∈ xs ∨ .unregister e.call ∈ xs) := by
    intro hmem
    obtain ⟨c', hc', hp⟩ := h.over hmem
    cases hc.symm.trans hc'
    rw [hp] at hin
    cases hin
  exact ⟨c, hc, hpeer, hin, h.registered hc hin, fun hmem => hover (Or.inr hmem), fun hmem => hover (Or.inl hmem)⟩

/-- A call whose session has panicked has taken that step. -/
theorem Leads.crashed (h : Leads xs s) {c : Call} (hc : s.calls[n]? = some c) (hp : c.phase = .crashed id) :
    .crash n ∈ xs := by
  induction h generalizing c with
  | nil => cases hc
  | concat hs hx ih =>
    rcases (step_goes hx).becomes hc with ⟨b, hb, hbc⟩ | ⟨-, hp'⟩
    · cases hbc with
      | stays | visited => exact List.mem_append_left _ (ih hb hp)
      | crashed => exact List.mem_append_right _ (List.mem_singleton_self _)
      | _ => cases hp
    · cases hp.symm.trans hp'

theorem Leads.left (h : Leads xs s) (hall : ∀ c ∈ s.calls, c.phase.ended = true) {e : Entry}
    (he : (id, e) ∈ s.registry.entries) : ∃ c, s.calls[e.call]? = some c ∧ c.phase = .crashed id ∧ .crash e.call ∈ xs := by
  obtain ⟨c, hc, -, hin, -⟩ := h.own he
  rcases CallPhase.ended_cases (hall c (List.mem_of_getElem? hc)) with hp | ⟨id', hp⟩
  · rw [hp] at hin
    cases hin
  · rw [hp] at hin
    cases hin
    exact ⟨c, hc, hp, h.crashed hc hp⟩

theorem Leads.empty (h : Leads xs s) (hall : ∀ c ∈ s.calls, c.phase = .over) : s.registry.entries = [] := by
  refine List.eq_nil_iff_forall_not_mem.mpr fun ⟨id, e⟩ he => ?_
  obtain ⟨c, hc, -, hin, -⟩ := h.own he
  rw [hall c (List.mem_of_getElem? hc)] at hin
  cases hin

/-- The registry has no entry but those of calls that have registered under its identity and have not left, whatever
    steps the calls take and in whatever order they come. -/
theorem Leads.faithful (h : Leads xs s) : Faithful xs s := by
  constructor
  · intro id e he
    exact h.own he
  · intro n now t hx
    have ht := (h.concat hx).keyed
    cases step_goes hx with
    | @register _ c id _ hc hp => exact ⟨c, id, hc, hp, ht.mem_entries_iff.mpr (Registry.get?_insert _ _ _)⟩
  · intro ha x t id e hx he
    have ht := (h.concat hx).keyed
    rw [ht.mem_entries_iff]
    exact h.entry_kept ha (step_goes hx) (h.keyed.mem_entries_iff.mp he)
  · exact ⟨fun x t hx => (step_goes hx).registry_eq, fun n => h.turned_away⟩
  · exact fun hall id e => h.left hall
  · exact h.empty
  · exact fun hs => ⟨(h.served hs).2, fun hall => congrArg List.length (h.empty hall)⟩

end Calls
end CallRelay
