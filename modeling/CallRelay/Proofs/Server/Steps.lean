import CallRelay.Server.Calls

/-! # Steps of the calls

What a step of a call, of the shutdown or of serving needs and what it does, and what it makes of each
call that is there. A run of steps begins with no calls; where it leads follows from its steps one by one. -/

namespace CallRelay

/-- The identity under which a call has been registered, as long as it has not left the registry. -/
def CallPhase.entered? : CallPhase → Option Identity
  | .registered id | .running id | .leaving id | .crashed id => some id
  | _ => none

/-- The identity that a call has announced, as long as the call is not over. -/
def CallPhase.identity? : CallPhase → Option Identity
  | .identified id | .registered id | .running id | .leaving id | .crashed id => some id
  | _ => none

theorem CallPhase.ended_cases {p : CallPhase} (h : p.ended = true) : p = .over ∨ ∃ id, p = .crashed id := by
  unfold ended at h
  split at h
  · next id => exact Or.inr ⟨id, rfl⟩
  · exact Or.inl rfl
  · cases h

/-- The call that a step moves on. -/
def CallStep.call? : CallStep → Option Nat
  | .identify n _ | .reject n | .register n _ | .check n | .finish n | .crash n | .unregister n => some n
  | _ => none

namespace Calls
variable {s t : Calls} {x : CallStep}

/-! ### One step -/

/-- Everything that a step can do. -/
inductive Goes (s : Calls) : CallStep → Calls → Prop
  | accept (peer : Address) (hl : s.listening = true) :
      Goes s (.accept peer) { s with calls := s.calls ++ [⟨peer, .opening, false⟩] }
  | identify {n : Nat} {c : Call} (id : Identity) (hc : s.calls[n]? = some c) (hp : c.phase = .opening) :
      Goes s (.identify n id) (s.move n (.identified id))
  | reject {n : Nat} {c : Call} (hc : s.calls[n]? = some c) (hp : c.phase = .opening) : Goes s (.reject n) (s.move n .over)
  | register {n : Nat} {c : Call} {id : Identity} (now : Nat) (hc : s.calls[n]? = some c) (hp : c.phase = .identified id) :
      Goes s (.register n now)
        { s.move n (.registered id) with registry := s.registry.insert id ⟨n, c.peer, now⟩ }
  | check {n : Nat} {c : Call} {id : Identity} (hc : s.calls[n]? = some c) (hp : c.phase = .registered id) :
      Goes s (.check n)
        (s.update n fun c => { c with phase := .running id, cancelled := c.cancelled || s.stopping })
  | finish {n : Nat} {c : Call} {id : Identity} (hc : s.calls[n]? = some c) (hp : c.phase = .running id) :
      Goes s (.finish n) (s.move n (.leaving id))
  | crash {n : Nat} {c : Call} {id : Identity} (hc : s.calls[n]? = some c) (hp : c.phase = .running id) :
      Goes s (.crash n) (s.move n (.crashed id))
  | unregister {n : Nat} {c : Call} {id : Identity} (hc : s.calls[n]? = some c) (hp : c.phase = .leaving id) :
      Goes s (.unregister n)
        { s.move n .over with
          registry := s.registry.eraseOf id c.peer
          walk := if ((s.registry.eraseOf id c.peer).get? id).isNone then s.walk.without id else s.walk }
  | raise (hw : s.walk = .none) :
      Goes s .raise { s with stopping := true, walk := .walking s.registry.identities }
  | visit {left : List Identity} {id : Identity} {e : Entry} (hw : s.walk = .walking left)
      (he : s.registry.get? id = some e) : Goes s (.visit id) { s.cancel e.call with walk := s.walk.without id }
  | settle (hw : s.walk = .walking []) : Goes s .settle { s with walk := .done }
  | stopListening (hs : s.stopping = true) (hl : s.listening = true) : Goes s .stopListening { s with listening := false }
  | leave (hl : s.listening = false) (hs : s.served = false) (hall : ∀ c ∈ s.calls, c.phase.ended = true) :
      Goes s .leave { s with served := true }

theorem checked_eq (s : Calls) (n : Nat) (phase : CallPhase) : (if s.stopping then s.cancel n else s).move n phase =
    s.update n fun c => { c with phase, cancelled := c.cancelled || s.stopping } := by
  cases hs : s.stopping with
  | false => simp only [Bool.false_eq_true, if_false, Bool.or_false, move]
  | true =>
    simp only [if_true, Bool.or_true, move, cancel, update, List.modify_modify_eq]
    rfl

theorem step_goes (h : s.step x = some t) : s.Goes x t := by
  cases x with
  | accept peer =>
    simp only [step] at h
    split at h <;> cases h
    next hl => exact .accept peer hl
  | identify n id =>
    simp only [step] at h
    split at h <;> cases h
    next hc => exact .identify id hc rfl
  | reject n =>
    simp only [step] at h
    split at h <;> cases h
    next hc => exact .reject hc rfl
  | register n now =>
    simp only [step] at h
    split at h <;> cases h
    next hc => exact .register now hc rfl
  | check n =>
    simp only [step] at h
    split at h <;> cases h
    next hc => exact checked_eq s n _ ▸ .check hc rfl
  | finish n =>
    simp only [step] at h
    split at h <;> cases h
    next hc => exact .finish hc rfl
  | crash n =>
    simp only [step] at h
    split at h <;> cases h
    next hc => exact .crash hc rfl
  | unregister n =>
    simp only [step] at h
    split at h <;> cases h
    next hc => exact .unregister hc rfl
  | raise =>
    simp only [step] at h
    split at h <;> cases h
    next hw => exact .raise hw
  | visit id =>
    simp only [step] at h
    split at h <;> cases h
    next hw he => exact .visit hw he
  | settle =>
    simp only [step] at h
    split at h <;> cases h
    next hw => exact .settle hw
  | stopListening =>
    simp only [step] at h
    split at h <;> cases h
    next hl => exact .stopListening hl.1 hl.2
  | leave =>
    simp only [step] at h
    split at h <;> cases h
    next hl =>
    simp only [not_or, Bool.not_eq_true, List.any_eq_false, Bool.not_eq_false'] at hl
    exact .leave hl.1 hl.2.1 hl.2.2

/-! ### One call -/

theorem getElem?_update (s : Calls) (m : Nat) (f : Call → Call) (n : Nat) :
    (s.update m f).calls[n]? = if m = n then s.calls[n]?.map f else s.calls[n]? := by
  rw [update, List.getElem?_modify]
  split
  · rfl
  · exact id_map' _

/-- What a step makes of call `n`, which was `c`. -/
inductive Becomes (stopping : Bool) (n : Nat) (c : Call) : CallStep → Call → Prop
  | stays {x : CallStep} (hx : x.call? ≠ some n) : Becomes stopping n c x c
  | identified (id : Identity) (hp : c.phase = .opening) :
      Becomes stopping n c (.identify n id) { c with phase := .identified id }
  | rejected (hp : c.phase = .opening) : Becomes stopping n c (.reject n) { c with phase := .over }
  | registered {id : Identity} (now : Nat) (hp : c.phase = .identified id) :
      Becomes stopping n c (.register n now) { c with phase := .registered id }
  | checked {id : Identity} (hp : c.phase = .registered id) :
      Becomes stopping n c (.check n) { c with phase := .running id, cancelled := c.cancelled || stopping }
  | finished {id : Identity} (hp : c.phase = .running id) :
      Becomes stopping n c (.finish n) { c with phase := .leaving id }
  | crashed {id : Identity} (hp : c.phase = .running id) :
      Becomes stopping n c (.crash n) { c with phase := .crashed id }
  | unregistered {id : Identity} (hp : c.phase = .leaving id) :
      Becomes stopping n c (.unregister n) { c with phase := .over }
  | visited (id : Identity) : Becomes stopping n c (.visit id) { c with cancelled := true }

namespace Becomes
variable {stopping : Bool} {n : Nat} {c d : Call} {id : Identity}

theorem peer (h : Becomes stopping n c x d) : d.peer = c.peer := by
  cases h <;> rfl

theorem cancelled (h : Becomes stopping n c x d) (hc : c.cancelled = true) : d.cancelled = true := by
  cases h with
  | checked => exact (congrArg (· || stopping) hc).trans (Bool.true_or _)
  | visited => rfl
  | _ => exact hc

/-- A registered call stays so until it leaves the registry. -/
theorem entered (h : Becomes stopping n c x d) (hc : c.phase.entered? = some id) :
    d.phase.entered? = some id ∨ x = .unregister n ∧ c.phase = .leaving id ∧ d.phase = .over := by
  cases h with
  | stays => exact Or.inl hc
  | visited => exact Or.inl hc
  | identified _ hp | rejected hp | registered _ hp =>
    rw [hp] at hc
    cases hc
  | checked hp | finished hp | crashed hp =>
    rw [hp] at hc
    exact Or.inl hc
  | unregistered hp =>
    rw [hp] at hc
    cases hc
    exact Or.inr ⟨rfl, hp, rfl⟩

/-- A call is registered in one step only. -/
theorem entering (h : Becomes stopping n c x d) (hd : d.phase.entered? = some id) :
    c.phase.entered? = some id ∨ c.phase = .identified id ∧ ∃ now, x = .register n now := by
  cases h with
  | stays => exact Or.inl hd
  | visited => exact Or.inl hd
  | identified | rejected | unregistered => cases hd
  | registered now hp =>
    cases hd
    exact Or.inr ⟨hp, now, rfl⟩
  | checked hp | finished hp | crashed hp =>
    cases hd
    exact Or.inl (congrArg CallPhase.entered? hp)

theorem announced (h : Becomes stopping n c x d) (hd : d.phase.identity? = some id) :
    c.phase.identity? = some id ∨ x = .identify n id := by
  cases h with
  | stays => exact Or.inl hd
  | visited => exact Or.inl hd
  | identified id' hp =>
    cases hd
    exact Or.inr rfl
  | rejected | unregistered => cases hd
  | registered _ hp | checked hp | finished hp | crashed hp =>
    cases hd
    exact Or.inl (congrArg CallPhase.identity? hp)

end Becomes

/-- A call after a step was there before, or it has just been accepted. -/
theorem Goes.becomes (h : s.Goes x t) {n : Nat} {d : Call} (hd : t.calls[n]? = some d) :
    (∃ c, s.calls[n]? = some c ∧ Becomes s.stopping n c x d) ∨ s.calls[n]? = none ∧ d.phase = .opening := by
  -- Most steps change at most one call.
  have changed : ∀ {m : Nat} {f : Call → Call}, (∀ c, s.calls[m]? = some c → Becomes s.stopping m c x (f c)) →
      (m ≠ n → x.call? ≠ some n) → (s.update m f).calls[n]? = some d →
      ∃ c, s.calls[n]? = some c ∧ Becomes s.stopping n c x d := by
    intro m f hf hx hd
    rw [getElem?_update] at hd
    split at hd
    · next hmn =>
      subst hmn
      obtain ⟨c, hc, rfl⟩ := Option.map_eq_some_iff.mp hd
      exact ⟨c, hc, hf c hc⟩
    · next hmn => exact ⟨d, hd, .stays (hx hmn)⟩
  have moved : ∀ {m : Nat} {f : Call → Call} {c : Call}, s.calls[m]? = some c → x.call? = some m →
      Becomes s.stopping m c x (f c) → (s.update m f).calls[n]? = some d →
      ∃ c, s.calls[n]? = some c ∧ Becomes s.stopping n c x d := by
    intro m f c hc hx hb
    refine changed (fun c' hc' => ?_) fun hmn hn => hmn (Option.some.inj (hx.symm.trans hn))
    cases hc.symm.trans hc'
    exact hb
  cases h with
  | accept peer hl =>
    rcases Nat.lt_trichotomy n s.calls.length with hlt | heq | hgt
    · rw [List.getElem?_append_left hlt] at hd
      exact Or.inl ⟨d, hd, .stays nofun⟩
    · subst heq
      rw [List.getElem?_concat_length] at hd
      cases hd
      exact Or.inr ⟨List.getElem?_eq_none (Nat.le_refl _), rfl⟩
    · rw [List.getElem?_eq_none (by rw [List.length_append]; exact hgt)] at hd
      cases hd
  | identify id hc hp => exact Or.inl (moved hc rfl (.identified id hp) hd)
  | reject hc hp => exact Or.inl (moved hc rfl (.rejected hp) hd)
  | register now hc hp => exact Or.inl (moved hc rfl (.registered now hp) hd)
  | check hc hp => exact Or.inl (moved hc rfl (.checked hp) hd)
  | finish hc hp => exact Or.inl (moved hc rfl (.finished hp) hd)
  | crash hc hp => exact Or.inl (moved hc rfl (.crashed hp) hd)
  | unregister hc hp => exact Or.inl (moved hc rfl (.unregistered hp) hd)
  | @visit left id e hw he => exact Or.inl (changed (fun _ _ => .visited id) (fun _ => nofun) hd)
  | raise hw => exact Or.inl ⟨d, hd, .stays nofun⟩
  | settle hw => exact Or.inl ⟨d, hd, .stays nofun⟩
  | stopListening hs hl => exact Or.inl ⟨d, hd, .stays nofun⟩
  | leave hl hs hall => exact Or.inl ⟨d, hd, .stays nofun⟩

/-- No step loses a call. -/
theorem Goes.kept (h : s.Goes x t) {n : Nat} {c : Call} (hc : s.calls[n]? = some c) :
    ∃ d, t.calls[n]? = some d ∧ Becomes s.stopping n c x d := by
  have hlen : s.calls.length ≤ t.calls.length := by
    cases h with
    | accept peer hl =>
      rw [List.length_append]
      exact Nat.le_add_right _ _
    | identify | reject | register | check | finish | crash | unregister | visit =>
      exact Nat.le_of_eq (List.length_modify _ _ _).symm
    | raise | settle | stopListening | leave => exact Nat.le_refl _
  obtain ⟨hlt, -⟩ := List.getElem?_eq_some_iff.mp hc
  have hd := List.getElem?_eq_getElem (Nat.lt_of_lt_of_le hlt hlen)
  rcases h.becomes hd with ⟨c', hc', hb⟩ | ⟨hnone, -⟩
  · cases hc.symm.trans hc'
    exact ⟨_, hd, hb⟩
  · cases hc.symm.trans hnone

/-! ### Runs -/

/-- The states to which steps lead, from the one without calls on. -/
inductive Leads : List CallStep → Calls → Prop
  | nil : Leads [] {}
  | concat {xs : List CallStep} {x : CallStep} {s t : Calls} (hs : Leads xs s) (hx : s.step x = some t) :
      Leads (xs ++ [x]) t

theorem steps_append (s : Calls) (xs ys : List CallStep) : s.steps (xs ++ ys) = (s.steps xs).bind fun t => t.steps ys := by
  rw [steps, List.foldlM_append]
  rfl

theorem steps_cons_eq_some {xs : List CallStep} :
    s.steps (x :: xs) = some t ↔ ∃ u, s.step x = some u ∧ u.steps xs = some t := by
  rw [steps, List.foldlM_cons]
  exact Option.bind_eq_some_iff

theorem Leads.steps {xs ys : List CallStep} (hs : Leads xs s) (h : s.steps ys = some t) : Leads (xs ++ ys) t := by
  induction ys generalizing xs s with
  | nil =>
    cases h
    rwa [List.append_nil]
  | cons y ys ih =>
    obtain ⟨u, hu, hys⟩ := steps_cons_eq_some.mp h
    have hled := ih (hs.concat hu) hys
    rwa [List.append_assoc] at hled

/-- A run leads to what its steps come to one after another. -/
theorem leads_iff {xs : List CallStep} : Leads xs s ↔ ({} : Calls).steps xs = some s := by
  refine ⟨fun h => ?_, Leads.nil.steps⟩
  induction h with
  | nil => rfl
  | concat hs hx ih => rw [steps_append, ih, Option.bind_some, steps_cons_eq_some.mpr ⟨_, hx, rfl⟩]

/-- A call has the identity that it announced. -/
theorem Leads.announced {xs : List CallStep} {n : Nat} {c : Call} {id : Identity} (h : Leads xs s)
    (hc : s.calls[n]? = some c) (hid : c.phase.identity? = some id) : .identify n id ∈ xs := by
  induction h generalizing c with
  | nil => cases hc
  | concat hs hx ih =>
    rcases (step_goes hx).becomes hc with ⟨b, hb, hbc⟩ | ⟨-, hp⟩
    · rcases hbc.announced hid with hid | rfl
      · exact List.mem_append_left _ (ih hb hid)
      · exact List.mem_append_right _ (List.mem_singleton_self _)
    · rw [hp] at hid
      cases hid

end Calls
end CallRelay
