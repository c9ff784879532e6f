import CallRelay.Proofs.Session.Counters
import CallRelay.Proofs.Session.Lifecycle

/-! # Cancelling a session

A session that is cancelled at the instant at which the wait for a deadline would have ended does what it would have done
for that deadline: only the reason that it reports is another one. -/

namespace CallRelay
namespace Session

/-- What a session reports that is cancelled, where another one reports `d` for its deadline. -/
def asCancelled (d : Disposition) : Disposition := if d = .deadlineElapsed then .cancelled else d

/-- The halves `h` and `h'` of two runs that were stopped at one instant, the first because it was cancelled and the second
    for its deadline. -/
structure SameHalves (h h' : Halves) : Prop where
  outbound : h.outbound = h'.outbound
  inbound : h.inbound = h'.inbound
  time : h.ending.time = h'.ending.time
  half : h.ending.half = h'.ending.half
  verdict : h.ending.verdict = h'.ending.verdict.map asCancelled
  uncancelled : h'.ending.verdict ≠ .ok .cancelled

theorem inboundVerdict_map (e : InboundEnd) : inboundVerdict e = (inboundVerdict e).map asCancelled ∧
    inboundVerdict e ≠ .ok .cancelled := by
  cases e with
  | peerHangup | peerClosed | failed => exact ⟨rfl, nofun⟩

/-- The reason for a stop changes nothing but what is reported. -/
theorem ending_reason (first : Half) (stop : Nat) (o : Outbound) (i : Option (Nat × InboundEnd)) :
    (ending first stop .cancelled o i).time = (ending first stop .deadlineElapsed o i).time ∧
    (ending first stop .cancelled o i).half = (ending first stop .deadlineElapsed o i).half ∧
    (ending first stop .cancelled o i).verdict = (ending first stop .deadlineElapsed o i).verdict.map asCancelled ∧
    (ending first stop .deadlineElapsed o i).verdict ≠ .ok .cancelled := by
  unfold ending
  split
  · exact ⟨rfl, rfl, rfl, nofun⟩
  · exact ⟨rfl, rfl, rfl, nofun⟩
  · exact ⟨rfl, rfl, rfl, nofun⟩
  · next t e ho =>
    split
    · exact ⟨rfl, rfl, rfl, nofun⟩
    · exact ⟨rfl, rfl, inboundVerdict_map e⟩

section Run
variable {σ κ η : Type}

theorem relay_reason (s : Session) (leg : Leg σ κ η) (clock : Clock) (first : Half) (stop due : Nat) :
    SameHalves (s.relay leg clock first stop due .cancelled) (s.relay leg clock first stop due .deadlineElapsed) := by
  obtain ⟨htime, hhalf, hverdict, huncancelled⟩ := ending_reason first stop
    (s.relay leg clock first stop due .cancelled).outbound (s.inbound leg).ending
  refine ⟨rfl, ?_, htime, hhalf, hverdict, huncancelled⟩
  cases h : (s.relay leg clock first stop due .deadlineElapsed).ending.half with
  | inbound => rw [relay_inbound (hhalf.trans h), relay_inbound h]
  | outbound =>
    rw [relay_cut_short (hhalf.trans h), relay_cut_short h]
    exact congrArg (fun t => (s.inbound leg).acts.filter (·.1 < seenFor first t)) htime

/-! ### What follows the halves -/

namespace SameHalves
variable {a b : Halves}

theorem drains (h : SameHalves a b) : a.drains = b.drains := by
  have hhalf := h.half
  have hverdict := h.verdict
  unfold Halves.drains
  rw [hhalf, hverdict]
  cases b.ending.verdict with
  | error e => rfl
  | ok d => cases b.ending.half <;> rfl

theorem hangUp (h : SameHalves a b) (s : Session) (clock : Clock) :
    Session.hangUp s clock a = Session.hangUp s clock b := by
  unfold Session.hangUp
  rw [h.drains, h.outbound, h.time]

theorem close (h : SameHalves a b) (s : Session) (clock : Clock) :
    (Session.close s clock a).states = (Session.close s clock b).states ∧
    (Session.close s clock a).writes = (Session.close s clock b).writes ∧
    (Session.close s clock a).shutdown = (Session.close s clock b).shutdown ∧
    (Session.close s clock a).time = (Session.close s clock b).time := by
  unfold Session.close
  simp only [h.hangUp, h.drains, h.outbound, h.time, and_self]

theorem reason (h : SameHalves a b) : a.ending.verdict = .ok .cancelled ↔ b.ending.verdict = .ok .deadlineElapsed := by
  have huncancelled := h.uncancelled
  rw [h.verdict]
  cases hv : b.ending.verdict with
  | error e => exact iff_of_false nofun nofun
  | ok d =>
    rw [hv] at huncancelled
    cases d with
    | deadlineElapsed => exact iff_of_true rfl rfl
    | cancelled => exact absurd rfl huncancelled
    | completed | peerHangup | peerClosed => exact iff_of_false nofun nofun

theorem result (h : SameHalves a b) (id : Identity) :
    a.result id = (b.result id).map fun summary => { summary with disposition := asCancelled summary.disposition } := by
  unfold Halves.result Halves.sent Halves.received
  rw [h.outbound, h.inbound, h.verdict]
  cases b.ending.verdict <;> rfl

end SameHalves

/-- The runs `r` and `r'` of a session differ in nothing that can be observed but the reason for their end: where `r'`
    reports its deadline, `r` reports that it was cancelled. -/
structure DrainsAlike (r r' : Report) : Prop where
  /-- The requests to the source, the ticks, and the bytes accepted, each with its instant. -/
  outbound : r.halves.outbound = r'.halves.outbound
  /-- The writes of the sink and the events of the handler, each with its instant. -/
  inbound : r.halves.inbound = r'.halves.inbound
  states : r.states = r'.states
  writes : r.writes = r'.writes
  attempt : r.attempt = r'.attempt
  shutdown : r.shutdown = r'.shutdown
  time : r.time = r'.time
  result : r.result = r'.result.map fun summary => { summary with disposition := asCancelled summary.disposition }
  reason : (∃ summary, r.result = .ok summary ∧ summary.disposition = .cancelled) ↔
    ∃ summary, r'.result = .ok summary ∧ summary.disposition = .deadlineElapsed

section Stop
variable {s : Session} {leg : Leg σ κ η} {clock : Clock} {first : Half} {deadline later t : Nat} {r r' : Report}

theorem stop_of_deadline (ht : clock.GivesUp s.opened deadline t) :
    (s.stop ⟨clock, deadline, none, first⟩).instant s.opened = t ∧
      (s.stop ⟨clock, deadline, none, first⟩).reason = .deadlineElapsed := by
  have hopened := clock.le_expiry s.opened deadline
  rw [ht.eq_expiry]
  refine ⟨?_, rfl⟩
  rw [Clock.expiry_eq] at hopened ⊢
  exact Nat.max_eq_right hopened

theorem stop_of_cancel (ht : clock.GivesUp s.opened deadline t)
    (hlater : clock.reach s.opened deadline ≤ clock.reach s.opened later) :
    (s.stop ⟨clock, later, some t, first⟩).instant s.opened = t ∧
      (s.stop ⟨clock, later, some t, first⟩).reason = .cancelled := by
  have hopened := clock.le_expiry s.opened deadline
  -- A deadline that is no earlier ends its wait no earlier, and at one instant the cancellation goes before it.
  have hle : t ≤ (s.stop ⟨clock, later, some t, first⟩).deadline := by
    rw [ht.eq_expiry, Clock.expiry_eq]
    exact clock.wake_mono (Nat.add_le_add_left hlater s.opened)
  rw [← ht.eq_expiry] at hopened
  constructor
  · show max s.opened (min t (s.stop ⟨clock, later, some t, first⟩).deadline) = t
    rw [Nat.min_eq_left hle, Nat.max_eq_right hopened]
  · unfold Stop.reason
    exact if_pos (decide_eq_true hle)

theorem run?_drainsAlike (ht : clock.GivesUp s.opened deadline t)
    (hlater : clock.reach s.opened deadline ≤ clock.reach s.opened later)
    (h : s.run? leg ⟨clock, later, some t, first⟩ = some r) (h' : s.run? leg ⟨clock, deadline, none, first⟩ = some r') :
    DrainsAlike r r' := by
  have hsame : SameHalves r.halves r'.halves := by
    rw [(run?_relays h).1, (run?_relays h').1, (stop_of_cancel ht hlater).1, (stop_of_cancel ht hlater).2,
      (stop_of_deadline ht).1, (stop_of_deadline ht).2]
    exact relay_reason s leg clock first t _
  obtain ⟨hstates, hwrites, hshutdown, htime⟩ := hsame.close s clock
  obtain ⟨hs, hd, ht, hattempt⟩ := run?_closes h
  obtain ⟨hs', hd', ht', hattempt'⟩ := run?_closes h'
  have hresult := hsame.result s.identity
  rw [← (run?_relays h).2.2, ← (run?_relays h').2.2] at hresult
  refine ⟨hsame.outbound, hsame.inbound, ?_, ?_, ?_, ?_, ?_, hresult, ?_⟩
  · rw [hs, hs', hstates]
  · rw [(run?_relays h).2.1, (run?_relays h').2.1, hwrites]
  · rw [hattempt, hattempt', hsame.hangUp]
  · rw [hd, hd', hshutdown]
  · rw [ht, ht', htime]
  · rw [run?_ok_iff (P := (· = .cancelled)) h, run?_ok_iff (P := (· = .deadlineElapsed)) h']
    simpa only [exists_eq_right] using hsame.reason

end Stop

/-- A session that is cancelled at `t` and otherwise would run on goes like one whose deadline ends its wait at `t`: all
    that is accepted, handed over, published and counted is the same, at the same instants, and only the reason reported
    is not. -/
theorem cancelled_like_deadline (s : Session) (leg : Leg σ κ η) (clock : Clock) (first : Half) (deadline later t : Nat)
    (ht : clock.GivesUp s.opened deadline t) (hlater : clock.reach s.opened deadline ≤ clock.reach s.opened later) :
    ((s.run? leg ⟨clock, later, some t, first⟩).isSome ↔ (s.run? leg ⟨clock, deadline, none, first⟩).isSome) ∧
    ∀ r r', s.run? leg ⟨clock, later, some t, first⟩ = some r → s.run? leg ⟨clock, deadline, none, first⟩ = some r' →
      DrainsAlike r r' := by
  refine ⟨?_, fun r r' h h' => run?_drainsAlike ht hlater h h'⟩
  rw [run?_isSome_iff, run?_isSome_iff]

end Run

/-! ### A message that is cut short -/

def roughClock : Clock := roughTerms.clock

/-- The connection accepts the first message and a part of the second one. -/
def shortLine : Outflow := { grants := some [⟨0, 7⟩], most := fun _ => 3 }

def clogged : Session := { quiet with outflow := shortLine }

/-- The instant is one at which waits can end, and the deadline is as far away as that. -/
theorem clogged_cancelled :
    ∃ r r', clogged.run? stalledLeg ⟨roughClock, Span.ofMillis 200, some (Span.ofMillis 90), .inbound⟩ = some r ∧
    clogged.run? stalledLeg ⟨roughClock, Span.ofMillis 90, none, .inbound⟩ = some r' ∧ DrainsAlike r r' ∧
    r.halves.outbound.phase.isAligned = false ∧ r.time = Span.ofMillis 90 := by
  obtain ⟨r, r', hrun, hrun', haligned, htime⟩ : ∃ r r',
      clogged.run? stalledLeg ⟨roughClock, Span.ofMillis 200, some (Span.ofMillis 90), .inbound⟩ = some r ∧
      clogged.run? stalledLeg ⟨roughClock, Span.ofMillis 90, none, .inbound⟩ = some r' ∧
      r.halves.outbound.phase.isAligned = false ∧ r.time = Span.ofMillis 90 := by
    with_unfolding_all exact ⟨_, _, rfl, rfl, rfl, rfl⟩
  have ht : roughClock.GivesUp clogged.opened (Span.ofMillis 90) (Span.ofMillis 90) :=
    Clock.givesUp_of_dvd (Nat.zero_le _) (by decide) (by decide)
  have hlike := cancelled_like_deadline clogged stalledLeg roughClock .inbound _ (Span.ofMillis 200) _ ht (by decide)
  exact ⟨r, r', hrun, hrun', hlike.2 r r' hrun hrun', haligned, htime⟩

/-- A cancellation ends a run at once, and a deadline only when waits can end. -/
theorem deadline_lags : ∃ r r', quiet.run? stalledLeg ⟨roughClock, Span.ofMillis 200, some 1250000, .inbound⟩ = some r ∧
    quiet.run? stalledLeg ⟨roughClock, 1250000, none, .inbound⟩ = some r' ∧ (quiet.inbound stalledLeg).ending = none ∧
    r.shutdown.1 = 1250000 ∧ r'.shutdown.1 = 2000000 ∧ r.time ≠ r'.time := by
  obtain ⟨r, r', hrun, hrun', hinbound, hshutdown, hshutdown', htime, htime'⟩ : ∃ r r',
      quiet.run? stalledLeg ⟨roughClock, Span.ofMillis 200, some 1250000, .inbound⟩ = some r ∧
      quiet.run? stalledLeg ⟨roughClock, 1250000, none, .inbound⟩ = some r' ∧ (quiet.inbound stalledLeg).ending = none ∧
      r.shutdown.1 = 1250000 ∧ r'.shutdown.1 = 2000000 ∧ r.time = 1250000 ∧ r'.time = 2000000 := by
    with_unfolding_all exact ⟨_, _, rfl, rfl, rfl, rfl, rfl, rfl, rfl⟩
  refine ⟨r, r', hrun, hrun', hinbound, hshutdown, hshutdown', ?_⟩
  rw [htime, htime']
  decide
end Session
end CallRelay
