import CallRelay.Proofs.Server.Presence
import CallRelay.Proofs.Session.Lifecycle
import CallRelay.Proofs.Session.Peers
import CallRelay.Server.Serving

/-! # The registry of a service

The calls of a service end as its sessions do. A session panics only if the clock has no instant for its first
tick or for the deadline that stands in for those past its range; a service whose sessions never do has nobody
in the registry once all calls have ended. -/

namespace CallRelay

namespace Service
variable {s : Service} {clock : Clock} {callers : Nat → Caller} {calls t : Calls} {xs : List CallStep} {n : Nat}
  {session : Session}

/-- The clock has the instants that a session of the service needs. -/
def InRange (s : Service) (clock : Clock) (session : Session) : Prop :=
  (clock.add? session.opened Clock.farFuture).isSome ∧ (clock.add? session.opened s.config.cadence).isSome

theorem session?_config {c : Caller} (h : s.session? clock c = some session) : session.config = s.config := by
  unfold session? answer at h
  split at h
  · next opened hopened =>
    cases h
    simp only at hopened
    split at hopened
    · next inner hinner =>
      cases hopened
      have hconfig : inner.config = s.config := Session.accept_config hinner
      exact hconfig
    · next hnot => exact absurd hopened (hnot _)
  · cases h

theorem play?_isSome_iff {c : Caller} (h : s.session? clock c = some session) (cancel : Option Nat) :
    (s.play? session clock cancel).isSome ↔ s.InRange clock session := by
  rw [play?, Session.run?_isSome_iff, session?_config h]
  rfl

theorem Serves.cons {x : CallStep} (hx : s.Takes clock callers calls x) (hstep : calls.step x = some t)
    (hrest : s.Serves clock callers t xs) : s.Serves clock callers calls (x :: xs) := by
  refine ⟨hx, fun u hu => ?_⟩
  cases hstep.symm.trans hu
  exact hrest

/-- The call of a session that panics is one whose instants the clock does not have. -/
theorem Serves.crash (h : s.Serves clock callers calls xs) (hsteps : calls.steps xs = some t) (hn : .crash n ∈ xs) :
    ∃ session, s.session? clock (callers n) = some session ∧ ¬s.InRange clock session := by
  induction xs generalizing calls with
  | nil => cases hn
  | cons x xs ih =>
    obtain ⟨htakes, hrest⟩ := h
    obtain ⟨u, hu, hus⟩ := Calls.steps_cons_eq_some.mp hsteps
    rcases List.mem_cons.mp hn with rfl | hn
    · obtain ⟨cancel, session, hsession, hplay⟩ := htakes
      refine ⟨session, hsession, fun hrange => ?_⟩
      have hsome := (play?_isSome_iff hsession cancel).mpr hrange
      rw [hplay] at hsome
      cases hsome
    · exact ih (hrest u hu) hus hn

end Service

namespace Calls

/-- The registry has no entry but those of calls that have registered under its identity and have not left, whatever
    steps the calls take and in whatever order they come. Those of a service leave none behind, if the clock has the
    instants that the sessions need: then nobody is left in the registry when all calls have ended, and so when serving
    has returned. -/
theorem registry_faithful {xs : List CallStep} {calls : Calls} (h : ({} : Calls).steps xs = some calls) :
    Faithful xs calls ∧ ∀ (s : Service) clock callers, s.Serves clock callers {} xs →
      (∀ n, .crash n ∈ xs → ∃ session, s.session? clock (callers n) = some session ∧ ¬s.InRange clock session) ∧
      ((∀ n session, s.session? clock (callers n) = some session → s.InRange clock session) →
        ((∀ c ∈ calls.calls, c.phase.ended = true) → calls.registry.entries = []) ∧
        (calls.served = true → (∀ c ∈ calls.calls, c.phase = .over) ∧ calls.active = 0)) := by
  have hleads := leads_iff.mpr h
  have hfaithful := hleads.faithful
  refine ⟨hfaithful, fun s clock callers hserves => ⟨fun n => hserves.crash h, fun hrange => ?_⟩⟩
  have hcrashes : ∀ n, .crash n ∉ xs := by
    intro n hn
    obtain ⟨session, hsession, hnot⟩ := hserves.crash h hn
    exact hnot (hrange n session hsession)
  have hempty : (∀ c ∈ calls.calls, c.phase.ended = true) → calls.registry.entries = [] := by
    intro hall
    refine List.eq_nil_iff_forall_not_mem.mpr fun ⟨id, e⟩ he => ?_
    obtain ⟨-, -, -, hcrash⟩ := hfaithful.left hall id e he
    exact hcrashes _ hcrash
  refine ⟨hempty, fun hserved => ?_⟩
  obtain ⟨hall, -⟩ := hfaithful.served hserved
  refine ⟨fun c hc => ?_, congrArg List.length (hempty hall)⟩
  obtain ⟨n, hn⟩ := List.getElem?_of_mem hc
  rcases CallPhase.ended_cases (hall c hc) with hp | ⟨id, hp⟩
  · exact hp
  · exact absurd (hleads.crashed hn hp) (hcrashes n)

/-! ### Two callers with one identity -/

/-- A service with a clip of one sample. -/
def jingle : Service := { clip := [1, 2] }

/-- Callers from different ports that announce the same identity. -/
def twins (n : Nat) : Caller := ⟨caller n, ⟨[⟨0, .bytes (encodeIdentity (.repeated 1))⟩], Session.quickLine⟩, 0⟩

/-- The second call has taken over the entry when the first one ends. -/
def takenOver : List CallStep := callSteps 0 (.repeated 1) ++ callSteps 1 (.repeated 1) ++ [.finish 0]

/-- Then both leave, and the server stops. -/
def takenOverServed : List CallStep :=
  takenOver ++ [.unregister 0, .finish 1, .unregister 1, .raise, .settle, .stopListening, .leave]

theorem twins_session (n : Nat) : ∃ session, jingle.session? Session.shortTerms.clock (twins n) = some session ∧
    session.identity = .repeated 1 ∧ session.opened = 0 := by
  with_unfolding_all exact ⟨_, rfl, rfl, rfl⟩

theorem twins_inRange (n : Nat) {session : Session}
    (h : jingle.session? Session.shortTerms.clock (twins n) = some session) :
    jingle.InRange Session.shortTerms.clock session := by
  obtain ⟨session', hsession, -, hopened⟩ := twins_session n
  cases h.symm.trans hsession
  rw [Service.InRange, hopened]
  decide

theorem jingle_serves : jingle.Serves Session.shortTerms.clock twins {} takenOverServed := by
  have hidentity : ∀ n, (jingle.session? Session.shortTerms.clock (twins n)).map (·.identity) = some (.repeated 1) := by
    intro n
    obtain ⟨session, hsession, hid, -⟩ := twins_session n
    rw [hsession, Option.map_some, hid]
  have hruns : ∀ n, ∃ r, jingle.Runs Session.shortTerms.clock (twins n) none (some r) := by
    intro n
    obtain ⟨session, hsession, -⟩ := twins_session n
    obtain ⟨r, hr⟩ := Option.isSome_iff_exists.mp
      ((Service.play?_isSome_iff hsession none).mpr (twins_inRange n hsession))
    exact ⟨r, session, hsession, hr⟩
  obtain ⟨r, hr⟩ := hruns 0
  obtain ⟨r', hr'⟩ := hruns 1
  refine .cons rfl rfl (.cons (hidentity 0) rfl (.cons trivial rfl (.cons trivial rfl ?_)))
  refine .cons rfl rfl (.cons (hidentity 1) rfl (.cons trivial rfl (.cons trivial rfl ?_)))
  refine .cons ⟨none, r, rfl, hr⟩ rfl (.cons trivial rfl (.cons ⟨none, r', rfl, hr'⟩ rfl (.cons trivial rfl ?_)))
  exact .cons trivial rfl (.cons trivial rfl (.cons trivial rfl (.cons trivial rfl trivial)))

theorem takenOver_faithful : (∃ s t, ({} : Calls).steps takenOver = some s ∧ s.Apart ∧ s.step (.unregister 0) = some t ∧
      (.repeated 1, ⟨1, caller 1, 0⟩) ∈ t.registry.entries) ∧
    ∃ s, ({} : Calls).steps takenOverServed = some s ∧ jingle.Serves Session.shortTerms.clock twins {} takenOverServed ∧
      s.served = true ∧ (∀ c ∈ s.calls, c.phase = .over) ∧ s.active = 0 := by
  constructor
  · obtain ⟨s, t, hs, ha, ht, he⟩ : ∃ s t, ({} : Calls).steps takenOver = some s ∧ s.Apart ∧
        s.step (.unregister 0) = some t ∧ (.repeated 1, ⟨1, caller 1, 0⟩) ∈ s.registry.entries :=
      ⟨_, _, rfl, by decide, rfl, List.mem_singleton_self _⟩
    refine ⟨s, t, hs, ha, ht, ?_⟩
    rcases (registry_faithful hs).1.kept ha _ _ _ _ ht he with hkept | hleft | ⟨m, now, c, -, hreg, -⟩
    · exact hkept
    · cases hleft
    · cases hreg
  · obtain ⟨s, hs, hserved⟩ : ∃ s, ({} : Calls).steps takenOverServed = some s ∧ s.served = true := ⟨_, rfl, rfl⟩
    refine ⟨s, hs, jingle_serves, hserved, ?_⟩
    exact (((registry_faithful hs).2 jingle _ twins jingle_serves).2 fun n session => twins_inRange n).2 hserved

/-! ### A call that panics -/

/-- A service whose first tick would be past every instant. -/
def timeless : Service := { clip := [1, 2], config := { cadence := Span.longest } }

/-- One call panics, and the server stops. -/
def panicked : List CallStep :=
  callSteps 0 (.repeated 1) ++ [.crash 0, .raise, .visit (.repeated 1), .settle, .stopListening, .leave]

theorem timeless_serves : timeless.Serves Session.shortTerms.clock twins {} panicked := by
  obtain ⟨session, hsession, hidentity, hplay⟩ : ∃ session,
      timeless.session? Session.shortTerms.clock (twins 0) = some session ∧ session.identity = .repeated 1 ∧
      timeless.play? session Session.shortTerms.clock none = none := by
    with_unfolding_all exact ⟨_, rfl, rfl, rfl⟩
  have hannounced : (timeless.session? Session.shortTerms.clock (twins 0)).map (·.identity) = some (.repeated 1) := by
    rw [hsession, Option.map_some, hidentity]
  refine .cons rfl rfl (.cons hannounced rfl (.cons trivial rfl (.cons trivial rfl ?_)))
  refine .cons ⟨none, session, hsession, hplay⟩ rfl (.cons trivial rfl (.cons trivial rfl (.cons trivial rfl ?_)))
  exact .cons trivial rfl (.cons trivial rfl trivial)

/-- The settings are accepted, and serving returns, but the call that has panicked counts as one in progress. -/
theorem panicked_call_active : timeless.config.Valid ∧ timeless.Serves Session.shortTerms.clock twins {} panicked ∧
    ∃ s, ({} : Calls).steps panicked = some s ∧ s.Apart ∧ s.served = true ∧
      (∀ c ∈ s.calls, c.phase.ended = true) ∧ s.active = 1 :=
  ⟨by decide, timeless_serves, _, rfl, by decide, rfl, by decide, rfl⟩

end Calls
end CallRelay
