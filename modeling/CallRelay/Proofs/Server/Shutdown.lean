import CallRelay.Proofs.Server.Entries

/-! # What a shutdown ends

A shutdown raises its sign before it walks the registry. A call that registers behind the sign finds it and
cancels itself; a call that looked before the sign is in the registry when the walk begins, and the walk
comes to it if it keeps its entry. A call that has lost its entry to another one with the same identity is
not found, and it goes on. -/

namespace CallRelay

/-- The walk has not begun, or it still has to come to `id`. -/
def ShutdownPhase.Awaits (w : ShutdownPhase) (id : Identity) : Prop := w = .none ∨ ∃ left, w = .walking left ∧ id ∈ left

theorem ShutdownPhase.Awaits.without {w : ShutdownPhase} {id other : Identity} (h : w.Awaits id) (hne : id ≠ other) :
    (w.without other).Awaits id := by
  rcases h with rfl | ⟨left, rfl, hid⟩
  · exact Or.inl rfl
  · exact Or.inr ⟨_, rfl, List.mem_filter.mpr ⟨hid, decide_eq_true hne⟩⟩

namespace Calls
variable {s t : Calls} {x : CallStep} {xs : List CallStep} {n : Nat} {id : Identity}

/-! ### The sign -/

theorem Goes.stopping (h : s.Goes x t) (hs : s.stopping = true) : t.stopping = true := by
  cases h <;> first | exact hs | rfl

/-- The sign is raised before anything else of a shutdown. -/
theorem Leads.raised (h : Leads xs s) : s.walk = .none ∨ s.stopping = true := by
  induction h with
  | nil => exact Or.inl rfl
  | concat hs hx ih =>
    have hx := step_goes hx
    rcases ih with hw | hs
    · cases hx with
      | raise => exact Or.inr rfl
      | visit hw' | settle hw' => cases hw.symm.trans hw'
      | unregister =>
        refine Or.inl ?_
        simp only [hw, ShutdownPhase.without, ite_self]
      | _ => exact Or.inl hw
    · exact Or.inr (hx.stopping hs)

/-- The sign is up, and the call has not looked at it yet or has cancelled itself. -/
def Warned (s : Calls) (n : Nat) : Prop :=
  s.stopping = true ∧ ∃ c, s.calls[n]? = some c ∧ (c.cancelled = true ∨ ∃ id, c.phase = .registered id)

theorem Goes.warned (h : s.Goes x t) (hw : s.Warned n) : t.Warned n := by
  obtain ⟨hs, c, hc, hcase⟩ := hw
  obtain ⟨d, hd, hb⟩ := h.kept hc
  refine ⟨h.stopping hs, d, hd, ?_⟩
  rcases hcase with hcancelled | ⟨id, hp⟩
  · exact Or.inl (hb.cancelled hcancelled)
  · cases hb with
    | stays => exact Or.inr ⟨id, hp⟩
    | visited => exact Or.inl rfl
    | checked => exact Or.inl (congrArg (c.cancelled || ·) hs |>.trans (Bool.or_true _))
    | identified _ hp' | rejected hp' | registered _ hp' | finished hp' | crashed hp' | unregistered hp' =>
      cases hp.symm.trans hp'

theorem warned_of_steps (hw : s.Warned n) (h : s.steps xs = some t) : t.Warned n := by
  induction xs generalizing s with
  | nil =>
    cases h
    exact hw
  | cons x xs ih =>
    obtain ⟨u, hu, hxs⟩ := steps_cons_eq_some.mp h
    exact ih ((step_goes hu).warned hw) hxs

/-- A call that registers behind the sign never runs without having cancelled itself. -/
theorem warned_of_register {front rest : List CallStep} {now : Nat} (hfront : ({} : Calls).steps front = some s)
    (hs : s.stopping = true) (h : ({} : Calls).steps (front ++ .register n now :: rest) = some t) : t.Warned n := by
  rw [steps_append, hfront] at h
  obtain ⟨u, hu, hrest⟩ := steps_cons_eq_some.mp h
  have hgoes := step_goes hu
  refine warned_of_steps ⟨hgoes.stopping hs, ?_⟩ hrest
  cases hgoes with
  | @register _ c id _ hc hp =>
    refine ⟨{ c with phase := .registered id }, ?_, Or.inr ⟨id, rfl⟩⟩
    exact (getElem?_update s n _ n).trans ((if_pos rfl).trans (congrArg (Option.map _) hc))

/-! ### The walk -/

/-- The walk does not pass over an identity that keeps its entry. -/
theorem Goes.awaits (h : s.Goes x t) (ha : s.walk.Awaits id) (hx : x ≠ .visit id) (hn : t.Holds n id) :
    t.walk.Awaits id := by
  cases h with
  | raise hw =>
    obtain ⟨e, he, -⟩ := hn
    exact Or.inr ⟨_, rfl, Registry.mem_identities he⟩
  | @visit left other e hw he => exact ha.without fun heq => hx (heq ▸ rfl)
  | settle hw =>
    rcases ha with hw' | ⟨left, hw', hid⟩
    · cases hw.symm.trans hw'
    · cases hw.symm.trans hw'
      cases hid
  | @unregister m c other hc hp =>
    obtain ⟨e, he, -⟩ := hn
    have he : (s.registry.eraseOf other c.peer).get? id = some e := he
    show ShutdownPhase.Awaits (if _ then _ else _) id
    split
    · next hnone =>
      refine ha.without fun heq => ?_
      rw [heq] at he
      rw [he] at hnone
      cases hnone
    · exact ha
  | _ => exact ha

/-- The walk cancels the call that has the entry. -/
theorem Goes.cancelled_of_visit (h : s.Goes (.visit id) t) (hn : s.Holds n id) {d : Call} (hd : t.calls[n]? = some d) :
    d.cancelled = true := by
  obtain ⟨e, he, rfl⟩ := hn
  cases h with
  | visit hw he' =>
    cases he.symm.trans he'
    have hd : (s.cancel e.call).calls[e.call]? = some d := hd
    rw [cancel, getElem?_update, if_pos rfl] at hd
    obtain ⟨c, -, rfl⟩ := Option.map_eq_some_iff.mp hd
    rfl

/-- A call that runs and has its entry has been cancelled, or the walk has yet to come to it. -/
theorem Leads.cancelled_or_awaits (h : Leads xs s) {c : Call} (hc : s.calls[n]? = some c) (hp : c.phase = .running id)
    (hn : s.Holds n id) : c.cancelled = true ∨ s.walk.Awaits id := by
  induction h generalizing c with
  | nil => cases hc
  | @concat xs x s t hs hx ih =>
    have hx := step_goes hx
    rcases hx.becomes hc with ⟨b, hb, hbc⟩ | ⟨-, hp'⟩
    · by_cases hrunning : b.phase = .running id
      · -- It ran before, and it had its entry then.
        have hbefore : s.Holds n id := by
          obtain ⟨e, he, rfl⟩ := hn
          rcases hx.entry he with hold | ⟨now, b', -, hb', hp', -⟩
          · exact ⟨e, hold, rfl⟩
          · cases hb.symm.trans hb'
            cases hrunning.symm.trans hp'
        rcases ih hb hrunning hbefore with hcancelled | ha
        · exact Or.inl (hbc.cancelled hcancelled)
        · by_cases hvisit : x = .visit id
          · subst hvisit
            exact Or.inl (hx.cancelled_of_visit hbefore hc)
          · exact Or.inr (hx.awaits ha hvisit hn)
      · cases hbc with
        | stays | visited => exact absurd hp hrunning
        | @checked id' hreg =>
          -- It has just looked at the sign.
          rcases hs.raised with hw | hup
          · exact Or.inr (hx.awaits (Or.inl hw) nofun hn)
          · exact Or.inl ((congrArg (b.cancelled || ·) hup).trans (Bool.or_true _))
        | _ => cases hp
    · cases hp.symm.trans hp'

/-! ### After the shutdown -/

/-- Once a shutdown has returned, each call that runs has been cancelled, unless its entry was taken from it
    by another call of its identity. A call that registers behind the sign does not run uncancelled. -/
theorem shutdown_cancels (h : ({} : Calls).steps xs = some s) :
    (s.walk = .done → ∀ n c id, s.calls[n]? = some c → c.phase = .running id → c.cancelled = true ∨ Ousted xs n id) ∧
    (∀ n id, Ousted xs n id → ∃ m, m ≠ n ∧ .identify m id ∈ xs) ∧
    ∀ front n now rest u, xs = front ++ .register n now :: rest → ({} : Calls).steps front = some u → u.stopping = true →
      s.Warned n := by
  have hleads := leads_iff.mpr h
  refine ⟨fun hdone n c id hc hp => ?_, fun n id => Ousted.shared, ?_⟩
  · have hin : c.phase.entered? = some id := congrArg CallPhase.entered? hp
    rcases hleads.holds_or_ousted hc hin with hn | hout
    · rcases hleads.cancelled_or_awaits hc hp hn with hcancelled | hw | ⟨left, hw, -⟩
      · exact Or.inl hcancelled
      · cases hdone.symm.trans hw
      · cases hdone.symm.trans hw
    · exact Or.inr hout
  · rintro front n now rest u rfl hfront hu
    exact warned_of_register hfront hu h

def caller (port : Nat) : Address := ⟨.v4 127 0 0 1, port⟩

/-- The steps of a call of the given identity up to its session. -/
def callSteps (n : Nat) (id : Identity) : List CallStep := [.accept (caller n), .identify n id, .register n 0, .check n]

/-- Two calls run when the sign is raised, and a third one registers behind it. -/
def threeCalls : List CallStep :=
  callSteps 0 (.repeated 1) ++ callSteps 1 (.repeated 2) ++ [.accept (caller 2), .identify 2 (.repeated 3), .raise] ++
    .register 2 0 :: [.visit (.repeated 2), .visit (.repeated 1), .check 2, .settle]

theorem threeCalls_cancelled : ∃ s c, ({} : Calls).steps threeCalls = some s ∧ s.walk = .done ∧ s.calls[0]? = some c ∧
    c.phase = .running (.repeated 1) ∧ c.cancelled = true ∧ s.Warned 2 := by
  obtain ⟨s, hs, hdone, hc⟩ : ∃ s, ({} : Calls).steps threeCalls = some s ∧ s.walk = .done ∧
      s.calls[0]? = some ⟨caller 0, .running (.repeated 1), true⟩ := ⟨_, rfl, rfl, rfl⟩
  obtain ⟨hwalk, hshared, hlate⟩ := shutdown_cancels hs
  refine ⟨s, _, hs, hdone, hc, rfl, ?_, hlate _ 2 0 _ _ rfl rfl rfl⟩
  rcases hwalk hdone 0 _ _ hc rfl with hcancelled | hout
  · exact hcancelled
  · -- No other call announces the first one's identity.
    obtain ⟨m, hm, hmem⟩ := hshared 0 _ hout
    simp [threeCalls, callSteps, Identity.repeated] at hmem
    exact absurd hmem hm

/-- A call whose identity another call has taken over is not found by the walk and goes on. -/
theorem shared_identity_missed : ∃ s, ({} : Calls).steps (callSteps 0 (.repeated 1) ++ callSteps 1 (.repeated 1) ++
      [.raise, .visit (.repeated 1), .settle]) = some s ∧ s.walk = .done ∧
    s.calls[0]? = some ⟨caller 0, .running (.repeated 1), false⟩ :=
  ⟨_, rfl, rfl, rfl⟩

end Calls
end CallRelay
