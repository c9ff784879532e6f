import CallRelay.Proofs.Session.Lifecycle

/-! # Returning in time

A run has at most three waits in front of it: for its stop, for the hangup and for the shutdown. Each is given up at the
first instant from its limit on at which waits can end. So a run returns in time whatever the peer, the source, the
sink and the connection do, and however late they do it, and so does a session that waits for an identity. -/

namespace CallRelay

/-- When opening a session is over, if ever. -/
def Opening.returned? (o : Opening) : Option Nat :=
  match o.ending with
  | .opened s => some s.opened
  | .refused t _ => some t
  | .stuck => none

theorem Effort.hangup_time (clock : Clock) (out : Outflow) (mark : Mark) (now limit : Nat) (tag : Label) :
    (Effort.hangup clock out mark now limit tag).time ≤ clock.expiry now limit := by
  unfold hangup
  simp only
  split
  · split
    · next hle => exact hle
    · exact Nat.le_refl _
  · split
    · next hle => exact hle
    · exact Nat.le_refl _
  · exact Nat.le_refl _

namespace Session

/-! ### A run -/

section Run
variable {σ κ η : Type} {s : Session} {leg : Leg σ κ η} {terms : Terms} {r : Report}

/-- How long a run may go on: up to its deadline, or until it is cancelled if that is earlier. -/
def allowance (s : Session) (terms : Terms) : Nat :=
  match terms.cancel with
  | some t => min terms.deadline (t - s.opened)
  | none => terms.deadline

theorem hangUp_time (s : Session) (clock : Clock) (h : Halves) :
    (hangUp s clock h).time ≤ clock.expiry h.ending.time s.config.drainTimeout := by
  have hle := clock.le_expiry h.ending.time s.config.drainTimeout
  unfold hangUp
  simp only
  split
  · split
    · exact Effort.hangup_time _ _ _ _ _ _
    · exact hle
  · exact hle

theorem hangUp_time_of_not_drains (s : Session) (clock : Clock) {h : Halves} (hd : h.drains = false) :
    (hangUp s clock h).time = h.ending.time := by
  unfold hangUp
  simp only [hd]
  rfl

theorem run?_ending_le (h : s.run? leg terms = some r) : r.halves.ending.time ≤ s.stopsAt terms := by
  rcases run?_stopped h with hlt | ⟨heq, -⟩ | heq
  · exact Nat.le_of_lt hlt
  · exact Nat.le_of_eq heq
  · rw [heq]

/-- A run stops when the wait for what it is allowed is over. -/
theorem stopsAt_le (hfar : (terms.clock.add? s.opened Clock.farFuture).isSome) :
    s.stopsAt terms ≤ terms.clock.wake (s.opened + s.allowance terms) := by
  have hspan : s.span terms ≤ terms.deadline := Clock.Bounds.reach_le (Or.inr hfar)
  have hwake := terms.clock.le_wake (s.opened + s.allowance terms)
  unfold stopsAt Stop.instant
  unfold allowance at hwake ⊢
  have hcancel : (s.stop terms).cancel = terms.cancel := rfl
  have hdeadline : (s.stop terms).deadline ≤ terms.clock.wake (s.opened + terms.deadline) :=
    terms.clock.wake_mono (Nat.add_le_add_left hspan _)
  rw [hcancel]
  cases hc : terms.cancel with
  | none =>
    simp only [hc] at hwake ⊢
    omega
  | some t =>
    simp only [hc] at hwake ⊢
    -- The deadline may be held up until waits can end, the cancellation is not.
    rcases Nat.le_total terms.deadline (t - s.opened) with hle | hle
    · rw [Nat.min_eq_left hle] at hwake ⊢
      omega
    · rw [Nat.min_eq_right hle] at hwake ⊢
      omega

/-- The run `r` ends, hangs up, shuts its connection down and returns, each in time. The bounds on the whole are for
    waits that the clock can bound. -/
structure Returns (s : Session) (terms : Terms) (r : Report) : Prop where
  ends : s.opened ≤ r.halves.ending.time ∧ r.halves.ending.time ≤ s.stopsAt terms
  hangsUp : r.halves.ending.time ≤ r.shutdown.1 ∧
    ∃ limit, terms.clock.GivesUp r.halves.ending.time s.config.drainTimeout limit ∧ r.shutdown.1 ≤ limit
  /-- Nothing is waited for in front of the shutdown if the inbound half or an error has ended the run. -/
  direct : ¬r.halves.Normal → r.shutdown.1 = r.halves.ending.time
  shutsDown : r.shutdown.1 ≤ r.time ∧
    ∃ limit, terms.clock.GivesUp r.shutdown.1 s.config.drainTimeout limit ∧ r.time ≤ limit
  total : terms.clock.Bounds r.shutdown.1 s.config.drainTimeout →
    r.time ≤ s.opened + s.allowance terms + 2 * s.config.drainTimeout + 3 * (terms.clock.grain - 1)
  /-- No wait is held up if all of them end at instants at which waits can end. -/
  exact : terms.clock.Bounds r.shutdown.1 s.config.drainTimeout → terms.clock.grain ∣ s.opened + s.allowance terms →
    terms.clock.grain ∣ s.config.drainTimeout → r.time ≤ s.opened + s.allowance terms + 2 * s.config.drainTimeout
  inbound : terms.clock.Bounds r.shutdown.1 s.config.drainTimeout → r.halves.ending.half = .inbound →
    r.time ≤ r.halves.ending.time + s.config.drainTimeout + (terms.clock.grain - 1)

theorem run?_shutdown_eq (h : s.run? leg terms = some r) : r.shutdown.1 = (hangUp s terms.clock r.halves).time := by
  rw [(run?_closes h).2.1]
  rfl

theorem run?_time (h : s.run? leg terms = some r) :
    r.shutdown.1 ≤ r.time ∧ r.time ≤ terms.clock.expiry r.shutdown.1 s.config.drainTimeout := by
  rw [run?_shutdown_eq h, (run?_closes h).2.2.1]
  exact Effort.shutdown_time _ _ _ _ _

theorem run?_direct (h : s.run? leg terms = some r) (hnormal : ¬r.halves.Normal) :
    r.shutdown.1 = r.halves.ending.time := by
  rw [← run?_drains h, Bool.not_eq_true] at hnormal
  rw [run?_shutdown_eq h]
  exact hangUp_time_of_not_drains s terms.clock hnormal

/-- The three waits of a run, one behind the other. -/
theorem run?_time_le (h : s.run? leg terms = some r) (hb : terms.clock.Bounds r.shutdown.1 s.config.drainTimeout) :
    r.time ≤ terms.clock.wake (terms.clock.wake (terms.clock.wake (s.opened + s.allowance terms) +
      s.config.drainTimeout) + s.config.drainTimeout) := by
  have hsome : (s.run? leg terms).isSome := by rw [h]; rfl
  have hstop := Nat.le_trans (run?_ending_le h) (stopsAt_le (run?_isSome_iff.mp hsome).1)
  have hlasts := (hangUp_lasts s terms.clock r.halves).le_time
  have hhangup := hangUp_time s terms.clock r.halves
  rw [← run?_shutdown_eq h] at hlasts hhangup
  -- A wait that begins earlier is given up earlier, so that each bound goes into the next one.
  have hshutdown := Nat.le_trans hhangup ((hb.mono hlasts).expiry_le hstop)
  exact Nat.le_trans (run?_time h).2 (hb.expiry_le hshutdown)

theorem run?_returns (h : s.run? leg terms = some r) : Returns s terms r := by
  have hlasts := (hangUp_lasts s terms.clock r.halves).le_time
  have hhangup := hangUp_time s terms.clock r.halves
  rw [← run?_shutdown_eq h] at hlasts hhangup
  refine ⟨⟨(run?_pieces h).2.2, run?_ending_le h⟩, ⟨hlasts, _, terms.clock.expiry_givesUp _ _, hhangup⟩, run?_direct h,
    ⟨(run?_time h).1, _, terms.clock.expiry_givesUp _ _, (run?_time h).2⟩, fun hb => ?_, fun hb hallowance hdrain => ?_,
    fun hb hin => ?_⟩
  · have hstop := terms.clock.wake_le (s.opened + s.allowance terms)
    have hdrain := terms.clock.wake_le (terms.clock.wake (s.opened + s.allowance terms) + s.config.drainTimeout)
    have hclose := Nat.le_trans (run?_time_le h hb) (terms.clock.wake_le _)
    omega
  · have htime := run?_time_le h hb
    have hdrained : terms.clock.grain ∣ s.opened + s.allowance terms + s.config.drainTimeout :=
      Nat.dvd_add hallowance hdrain
    rw [terms.clock.wake_of_dvd hallowance, terms.clock.wake_of_dvd hdrained,
      terms.clock.wake_of_dvd (Nat.dvd_add hdrained hdrain)] at htime
    omega
  · have hdirect := run?_direct h fun hnormal => by
      cases hin.symm.trans hnormal.1
    have hclose := Nat.le_trans (run?_time h).2 (hb.expiry_le (Nat.le_of_eq hdirect))
    exact Nat.le_trans hclose (terms.clock.wake_le _)

end Run

/-! ### Accepting -/

/-- An accepting session that began to wait at `now` is over at `t`: first the wait for the identity is given up in time,
    then the one for the shutdown. -/
structure Answers (clock : Clock) (config : Config) (now t : Nat) : Prop where
  limits : ∃ limit decided last, clock.GivesUp now config.bootstrapTimeout limit ∧ decided ≤ limit ∧
    clock.GivesUp decided config.drainTimeout last ∧ t ≤ last
  total : clock.Bounds now config.bootstrapTimeout →
    clock.Bounds (clock.expiry now config.bootstrapTimeout) config.drainTimeout →
    t ≤ now + config.bootstrapTimeout + config.drainTimeout + 2 * (clock.grain - 1)
  exact : clock.Bounds now config.bootstrapTimeout →
    clock.Bounds (clock.expiry now config.bootstrapTimeout) config.drainTimeout →
    clock.grain ∣ now + config.bootstrapTimeout → clock.grain ∣ config.drainTimeout →
    t ≤ now + config.bootstrapTimeout + config.drainTimeout

section Accept
variable {clock : Clock} {conn : Connection} {config : Config} {now t decided : Nat}

theorem answers_of_decided (hdecided : decided ≤ clock.expiry now config.bootstrapTimeout)
    (ht : t ≤ clock.expiry decided config.drainTimeout) : Answers clock config now t := by
  have hwaits : clock.Bounds now config.bootstrapTimeout →
      clock.Bounds (clock.expiry now config.bootstrapTimeout) config.drainTimeout →
      t ≤ clock.wake (clock.wake (now + config.bootstrapTimeout) + config.drainTimeout) := fun hb hdrain =>
    Nat.le_trans ht ((hdrain.mono hdecided).expiry_le (Nat.le_trans hdecided (hb.expiry_le (Nat.le_refl now))))
  refine ⟨⟨_, decided, _, clock.expiry_givesUp _ _, hdecided, clock.expiry_givesUp _ _, ht⟩, fun hb hdrain => ?_,
    fun hb hdrain hbootstrap hdvd => ?_⟩
  · have hidentity := clock.wake_le (now + config.bootstrapTimeout)
    have hclose := Nat.le_trans (hwaits hb hdrain) (clock.wake_le _)
    omega
  · have htime := hwaits hb hdrain
    rwa [clock.wake_of_dvd hbootstrap, clock.wake_of_dvd (Nat.dvd_add hbootstrap hdvd)] at htime

theorem Rejects.answers {e : RelayError} {o : Opening} (h : Rejects clock config decided e o)
    (hdecided : decided ≤ clock.expiry now config.bootstrapTimeout) :
    ∃ t, o.returned? = some t ∧ Answers clock config now t := by
  obtain ⟨-, -, limit, t, hgives, hend, -, ht⟩ := h
  rw [hgives.eq_expiry] at ht
  refine ⟨t, ?_, answers_of_decided hdecided ht⟩
  rw [Opening.returned?, hend]

theorem accept_answers (clock : Clock) (conn : Connection) (config : Config) (now : Nat) :
    ∃ t, (accept clock conn config now).returned? = some t ∧ Answers clock config now t := by
  cases hf : config.fault? with
  | some f =>
    rw [accept_of_fault hf]
    exact ⟨now, rfl, answers_of_decided (clock.le_expiry now _) (clock.le_expiry now _)⟩
  | none =>
    cases accept_of_valid (Config.fault?_eq_none_iff.mp hf) with
    | identity t m s hfirst ht hkind hlength h =>
      refine ⟨t, ?_, answers_of_decided ht (clock.le_expiry t _)⟩
      rw [Opening.returned?, h.ending, ← h.session.2.2]
    | other t m hfirst ht hm h => exact h.answers ht
    | ended t hfirst ht h => exact h.answers ht
    | failed t f hfirst ht h => exact h.answers ht
    | late hfirst h => exact h.answers (Nat.le_refl _)

end Accept

/-- Every run returns in time, if the clock has instants for its first tick and for the deadline that stands in for those
    past its range, and so does every session that is accepted. -/
theorem ends_in_time {σ κ η : Type} (s : Session) (leg : Leg σ κ η) (terms : Terms) :
    ((terms.clock.add? s.opened Clock.farFuture).isSome → (terms.clock.add? s.opened s.config.cadence).isSome →
      ∃ r, s.run? leg terms = some r ∧ Returns s terms r) ∧
    (∀ r, s.run? leg terms = some r → Returns s terms r) ∧
    ∀ clock conn config now, ∃ t, (accept clock conn config now).returned? = some t ∧ Answers clock config now t := by
  refine ⟨fun hfar hdue => ?_, fun r hr => run?_returns hr, accept_answers⟩
  obtain ⟨r, hr⟩ := Option.isSome_iff_exists.mp (run?_isSome_iff.mpr ⟨hfar, hdue⟩)
  exact ⟨r, hr, run?_returns hr⟩

/-! ### Runs that wait -/

/-- A connection that accepts nothing and is never shut down. -/
def deadLine : Outflow := { grants := some [], most := fun _ => 1, shutdown := .hangs }

def forsaken : Session := { quiet with outflow := deadLine }

/-- Every wait of this run is given up: the one for the deadline while an audio message is to be sent, the one for the
    hangup and the one for the shutdown. -/
theorem forsaken_returns : ∃ r, forsaken.run? stalledLeg shortTerms = some r ∧ Returns forsaken shortTerms r ∧
    r.time = forsaken.opened + shortTerms.deadline + 2 * forsaken.config.drainTimeout := by
  obtain ⟨r, hrun, htime⟩ : ∃ r, forsaken.run? stalledLeg shortTerms = some r ∧
      r.time = forsaken.opened + shortTerms.deadline + 2 * forsaken.config.drainTimeout := by
    with_unfolding_all exact ⟨_, rfl, rfl⟩
  exact ⟨r, hrun, (ends_in_time forsaken stalledLeg shortTerms).2.1 r hrun, htime⟩

/-- A session that grants no time to drain. -/
def brisk : Session :=
  start (.repeated 7) { drainTimeout := 0 } (Config.fault?_eq_none_iff.mp rfl) (.ofInflow []) quickLine {} 0

/-- The wait for the deadline ends only with the next millisecond, and the run goes on until then. -/
theorem deadline_overstayed : ∃ r, brisk.run? stalledLeg roughTerms = some r ∧ brisk.config.Valid ∧
    roughTerms.cancel = none ∧ roughTerms.deadline = 1250000 ∧ brisk.config.drainTimeout = 0 ∧ r.time = 2000000 ∧
    ¬r.time ≤ brisk.opened + roughTerms.deadline + 2 * brisk.config.drainTimeout := by
  obtain ⟨r, hrun, htime⟩ : ∃ r, brisk.run? stalledLeg roughTerms = some r ∧ r.time = 2000000 := by
    with_unfolding_all exact ⟨_, rfl, rfl⟩
  refine ⟨r, hrun, brisk.valid, rfl, rfl, rfl, htime, ?_⟩
  rw [htime]
  decide

end Session
end CallRelay
