import CallRelay.Session.Run

/-! # What ends a run

The half that ends first ends the session, and the outbound half also when the session has to stop. A run
is its two halves, cut there, and what the close makes of them. -/

namespace CallRelay
namespace Session

/-- Everything that can end a session whose halves came to `o` and `i`. -/
inductive Ends (first : Half) (stop : Nat) (reason : Disposition) (o : Outbound) (i : Option (Nat × InboundEnd)) :
    Ending → Prop
  | exhausted (ho : o.ending = .exhausted) : Ends first stop reason o i ⟨o.time, .outbound, .ok .completed⟩
  | failed (e : RelayError) (ho : o.ending = .failed e) : Ends first stop reason o i ⟨o.time, .outbound, .error e⟩
  | stopped (ho : o.ending = .cut) (hi : ∀ t e, i = some (t, e) → stop < cutFor first t) :
      Ends first stop reason o i ⟨stop, .outbound, .ok reason⟩
  | inbound (t : Nat) (e : InboundEnd) (ho : o.ending = .cut) (hi : i = some (t, e)) (hstop : cutFor first t ≤ stop) :
      Ends first stop reason o i ⟨t, .inbound, inboundVerdict e⟩

theorem ending_ends (first : Half) (stop : Nat) (reason : Disposition) (o : Outbound) (i : Option (Nat × InboundEnd)) :
    Ends first stop reason o i (ending first stop reason o i) := by
  unfold ending
  split
  · next ho => exact .exhausted ho
  · next e ho => exact .failed e ho
  · next ho => exact .stopped ho nofun
  · next t e ho =>
    split
    · next hlt =>
      refine .stopped ho fun t' e' hi => ?_
      cases hi
      exact hlt
    · next hle => exact .inbound t e ho rfl (Nat.le_of_not_lt hle)

theorem reason_cases (stop : Stop) : stop.reason = .cancelled ∨ stop.reason = .deadlineElapsed := by
  unfold Stop.reason
  split
  · exact Or.inl rfl
  · exact Or.inr rfl

section Run
variable {σ κ η : Type} {s : Session} {leg : Leg σ κ η} {terms : Terms} {report : Report}

def inbound (s : Session) (leg : Leg σ κ η) : Inbound :=
  .run leg.sink leg.handler s.reader leg.ear leg.watch s.opened

theorem cadence_pos (s : Session) : 0 < s.config.cadence := s.valid.cadence_pos

def pacing (s : Session) (clock : Clock) : Pacing := ⟨s.config.frameSize, s.config.cadence, s.cadence_pos, clock⟩

/-- The outbound half of a session if nothing but a cut at `limit` can end it. -/
def outboundUntil (s : Session) (leg : Leg σ κ η) (clock : Clock) (limit : Nat) : Outbound :=
  .run leg.source s.outflow (s.pacing clock) limit leg.voice s.mark s.opened (s.opened + s.config.cadence)

/-- How long a session may run: thirty years if there is no instant as far ahead as its deadline. -/
def span (s : Session) (terms : Terms) : Nat :=
  if (terms.clock.add? s.opened terms.deadline).isSome then terms.deadline else Clock.farFuture

/-- When a session has to stop on the given terms. -/
def stop (s : Session) (terms : Terms) : Stop := ⟨terms.clock.wake (s.opened + s.span terms), terms.cancel⟩

/-- The instant at which outbound audio is cut: that of the stop, or earlier if the inbound half ends the session. -/
def cut (s : Session) (leg : Leg σ κ η) (terms : Terms) : Nat :=
  match (s.inbound leg).ending with
  | some (t, _) => min ((s.stop terms).instant s.opened) (cutFor terms.first t)
  | none => (s.stop terms).instant s.opened

theorem add?_eq_some {c : Clock} {now span t : Nat} (h : c.add? now span = some t) : t = now + span := by
  unfold Clock.add? at h
  split at h <;> cases h
  rfl

theorem deadline?_eq_some {t : Nat} (h : terms.clock.deadline? s.opened terms.deadline = some t) :
    t = s.opened + s.span terms := by
  obtain ⟨far, hfar, rfl⟩ := Option.map_eq_some_iff.mp h
  unfold span
  cases hadd : terms.clock.add? s.opened terms.deadline with
  | none => simpa using add?_eq_some hfar
  | some t => simpa using add?_eq_some hadd

/-- A run is the close of its halves, which relay up to the stop and take their first tick one cadence
    after the start. -/
theorem run?_relays (h : s.run? leg terms = some report) :
    report.halves = s.relay leg terms.clock terms.first ((s.stop terms).instant s.opened) (s.opened + s.config.cadence)
        (s.stop terms).reason ∧
      report.writes = (close s terms.clock report.halves).writes ∧ report.result = report.halves.result s.identity := by
  unfold run? at h
  cases hd : terms.clock.deadline? s.opened terms.deadline with
  | none => simp [hd] at h
  | some deadline =>
    cases hdue : terms.clock.add? s.opened s.config.cadence with
    | none => simp [hd, hdue] at h
    | some due =>
      simp only [hd, hdue, Option.bind_eq_bind, Option.bind_some, Option.some.injEq] at h
      subst h
      rw [← add?_eq_some hdue, stop, ← deadline?_eq_some hd]
      exact ⟨rfl, rfl, rfl⟩

theorem run?_eq_some (h : s.run? leg terms = some report) : ∃ stop : Stop,
    report.halves = s.relay leg terms.clock terms.first (stop.instant s.opened) (s.opened + s.config.cadence) stop.reason ∧
      report.writes = (close s terms.clock report.halves).writes ∧ report.result = report.halves.result s.identity :=
  ⟨s.stop terms, run?_relays h⟩

theorem run?_ok {summary : Summary} (h : s.run? leg terms = some report) (hok : report.result = .ok summary) :
    ∃ d, report.halves.ending.verdict = .ok d ∧ summary = ⟨s.identity, d, report.halves.sent, report.halves.received⟩ := by
  rw [(run?_relays h).2.2, Halves.result] at hok
  cases hv : report.halves.ending.verdict with
  | error e =>
    rw [hv] at hok
    cases hok
  | ok d =>
    rw [hv] at hok
    cases hok
    exact ⟨d, rfl, rfl⟩

section Relay
variable {clock : Clock} {first : Half} {stop due : Nat} {reason : Disposition}

theorem relay_ends : Ends first stop reason (s.relay leg clock first stop due reason).outbound (s.inbound leg).ending
    (s.relay leg clock first stop due reason).ending :=
  ending_ends _ _ _ _ _

theorem relay_outbound (s : Session) (leg : Leg σ κ η) (clock : Clock) (first : Half) (stop due : Nat)
    (reason : Disposition) :
    ∃ p : Pacing, p.frameSize = s.config.frameSize ∧ p.cadence = s.config.cadence ∧ p.clock = clock ∧
      (s.relay leg clock first stop due reason).outbound = .run leg.source s.outflow p
        (match (s.inbound leg).ending with | some (t, _) => min stop (cutFor first t) | none => stop)
        leg.voice s.mark s.opened due :=
  ⟨⟨s.config.frameSize, s.config.cadence, s.valid.cadence_pos, clock⟩, rfl, rfl, rfl, rfl⟩

/-- A session that its inbound half ends has done what that half does alone. -/
theorem relay_inbound (hin : (s.relay leg clock first stop due reason).ending.half = .inbound) :
    (s.relay leg clock first stop due reason).inbound = (s.inbound leg).acts := by
  unfold relay at hin ⊢
  simp only at hin ⊢
  rw [hin]
  rfl

theorem relay_inbound_ending (hin : (s.relay leg clock first stop due reason).ending.half = .inbound) :
    ∃ t e, (s.inbound leg).ending = some (t, e) ∧
      (s.relay leg clock first stop due reason).ending = ⟨t, .inbound, inboundVerdict e⟩ := by
  have hends : Ends first stop reason (s.relay leg clock first stop due reason).outbound (s.inbound leg).ending
      (s.relay leg clock first stop due reason).ending := relay_ends
  generalize (s.relay leg clock first stop due reason).ending = ended at hin hends ⊢
  cases hends with
  | exhausted => cases hin
  | failed => cases hin
  | stopped => cases hin
  | inbound t e ho hi hstop => exact ⟨t, e, hi, rfl⟩

end Relay

/-- The outbound half of a run is cut at the stop, or when the inbound half ends. -/
theorem run?_outboundUntil (h : s.run? leg terms = some report) :
    report.halves.outbound = s.outboundUntil leg terms.clock (s.cut leg terms) := by
  rw [(run?_relays h).1]
  rfl

theorem run?_outbound (h : s.run? leg terms = some report) : ∃ p : Pacing, p.frameSize = s.config.frameSize ∧
    p.cadence = s.config.cadence ∧ p.clock = terms.clock ∧ report.halves.outbound =
      .run leg.source s.outflow p (s.cut leg terms) leg.voice s.mark s.opened (s.opened + s.config.cadence) :=
  ⟨s.pacing terms.clock, rfl, rfl, rfl, run?_outboundUntil h⟩

/-- A run that the inbound half ends has done all that this half does and comes to what it comes to. -/
theorem run?_inbound (h : s.run? leg terms = some report) (hin : report.halves.ending.half = .inbound) :
    report.halves.inbound = (s.inbound leg).acts ∧ ∃ t e, (s.inbound leg).ending = some (t, e) ∧
      report.halves.ending = ⟨t, .inbound, inboundVerdict e⟩ ∧
      report.result = (inboundVerdict e).map fun d =>
        ⟨s.identity, d, report.halves.sent, .of (Inbound.handedOf (s.inbound leg).acts)⟩ := by
  obtain ⟨stop, hhalves, -, hresult⟩ := run?_eq_some h
  rw [hhalves] at hin
  have hacts := relay_inbound hin
  obtain ⟨t, e, hi, hend⟩ := relay_inbound_ending hin
  rw [← hhalves] at hacts hend
  refine ⟨hacts, t, e, hi, hend, ?_⟩
  rw [hresult, Halves.result, hend, Halves.received, hacts]

end Run
end Session
end CallRelay
