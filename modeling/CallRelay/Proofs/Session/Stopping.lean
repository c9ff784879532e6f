import CallRelay.Proofs.Session.Pace
import CallRelay.Proofs.Wire.Inverse
import Mathlib.Data.Set.Card
import Mathlib.Order.Interval.Finset.Nat

/-! # Stopping a session

From the instant at which a session has to stop no more audio is accepted, and the outbound half ends there
if nothing has ended the session before. It reports a cancellation if there was one by then, and the
deadline otherwise. What it leaves behind are whole messages unless one had been begun. -/

namespace CallRelay

/-! ### What is accepted by the cut -/

namespace Outbound
variable {σ : Type} {src : Source σ} {out : Outflow} {room limit start : Nat} {tick : Nat → Nat} {s : σ} {mark : Mark}
  {o : Outbound}

theorem pieces_eq (o : Outbound) : o.pieces = o.begun.flatMap Turn.pieces := by
  rw [pieces, begun, List.flatMap_append]
  refine congrArg (o.turns.flatMap Turn.pieces ++ ·) ?_
  cases o.phase with
  | sending turn => exact (List.append_nil turn.pieces).symm
  | _ => rfl

theorem HandsOver.pieces {turn : Turn} (h : HandsOver out limit mark turn) : ∀ p ∈ turn.pieces, p.1 < limit ∧ p.2 ≠ [] := by
  rcases h with ⟨-, hp⟩ | ⟨-, w, -, hp⟩
  · rw [hp]
    exact nofun
  · intro p hmem
    rw [hp] at hmem
    obtain ⟨hmem, hlt⟩ := List.mem_filter.mp hmem
    exact ⟨of_decide_eq_true hlt, (send_delivers out mark w turn.began).pieces_ne_nil p hmem⟩

theorem Scheduled.pieces (h : Scheduled src out room limit start tick s mark o) :
    ∀ p ∈ o.pieces, p.1 < limit ∧ p.2 ≠ [] := by
  intro p hp
  rw [pieces_eq] at hp
  obtain ⟨turn, hturn, hp⟩ := List.mem_flatMap.mp hp
  obtain ⟨n, hn⟩ := List.getElem?_of_mem hturn
  exact (h.handsOver n turn hn).pieces p hp

/-- What was accepted is whole messages exactly if nothing of the unfinished one was. -/
theorem isAligned_iff (hframed : o.Framed) (hpieces : ∀ p ∈ o.pieces, p.2 ≠ []) :
    o.phase.isAligned = true ↔ ∃ ms : List Message, Transfer.bytesOf o.pieces = ms.flatMap Message.encode := by
  obtain ⟨frames, hframes, hbytes, hpart⟩ := hframed
  obtain ⟨ms, -, -, hflat⟩ := Message.of_mapM_encodeAudio hframes
  rw [hflat] at hbytes
  constructor
  · intro hal
    refine ⟨ms, ?_⟩
    rw [hbytes, List.isEmpty_iff.mp hal]
    exact List.append_nil _
  · rintro ⟨ms', hms'⟩
    have hnil : Transfer.bytesOf o.phase.pieces = [] := by
      rcases hpart with hnil | ⟨c, w, -, hw, hcut⟩
      · rw [hnil]
        rfl
      · -- The bytes are read in one way only, and then nothing is left of them.
        obtain ⟨hle, rfl⟩ := encodeMessage_eq_ok_iff.mp hw
        have hleft : (Message.decodeAll (ms.flatMap Message.encode ++ Transfer.bytesOf o.phase.pieces)).2.1 =
            Transfer.bytesOf o.phase.pieces := (Message.decodeAll_encodes_cut ⟨_, hcut⟩).2
        have hnone : (Message.decodeAll (ms'.flatMap Message.encode ++ [])).2.1 = [] :=
          (Message.decodeAll_encodes_cut ⟨_, isCut_nil (Message.ofKind .audio c hle).encode_ne_nil⟩).2
        rw [List.append_nil, ← hms', hbytes] at hnone
        exact hleft.symm.trans hnone
    refine List.isEmpty_iff.mpr (List.eq_nil_iff_forall_not_mem.mpr fun p hp => ?_)
    exact hpieces p (List.mem_append_right _ hp) (List.flatMap_eq_nil_iff.mp hnil p hp)

/-- There is a tick before the cut for every message sent. -/
theorem Scheduled.length_sent_le {cadence stop : Nat} (h : Scheduled src out room limit start tick s mark o)
    (hpos : 0 < cadence) (htick : ∀ n, start + n * cadence ≤ tick n) (hstop : limit ≤ stop) :
    o.sent.length ≤ Set.ncard {k | 1 ≤ k ∧ start + k * cadence < stop} := by
  have hfinite : {k | 1 ≤ k ∧ start + k * cadence < stop}.Finite := by
    refine (Set.finite_lt_nat stop).subset fun k hk => ?_
    have hle : k ≤ k * cadence := Nat.le_mul_of_pos_right k hpos
    have hlt : start + k * cadence < stop := hk.2
    show k < stop
    omega
  have hsub : (Finset.Icc 1 o.turns.length : Set Nat) ⊆ {k | 1 ≤ k ∧ start + k * cadence < stop} := by
    intro k hmem
    obtain ⟨hk, hle⟩ := Finset.mem_Icc.mp hmem
    obtain ⟨n, rfl⟩ := Nat.exists_eq_add_of_le' hk
    have hturn : o.begun[n]? = some o.turns[n] := by
      rw [begun, List.getElem?_append_left hle, List.getElem?_eq_getElem hle]
    refine ⟨hk, ?_⟩
    calc start + (n + 1) * cadence ≤ tick (n + 1) := htick (n + 1)
      _ ≤ o.turns[n].began := h.tick_le_began hturn
      _ < limit := (h.began n _ hturn).2
      _ ≤ stop := hstop
  calc o.sent.length ≤ (o.turns.map Turn.chunk).length := List.length_filter_le _ _
    _ = Set.ncard (Finset.Icc 1 o.turns.length : Set Nat) := by
      rw [Set.ncard_coe_finset, Nat.card_Icc, List.length_map, Nat.add_sub_cancel]
    _ ≤ _ := Set.ncard_le_ncard hsub hfinite

end Outbound

/-! ### The stop -/

namespace Session

section Run
variable {σ κ η : Type} {s : Session} {leg : Leg σ κ η} {terms : Terms} {report : Report}

/-- The instant from which a session accepts no more audio. -/
def stopsAt (s : Session) (terms : Terms) : Nat := (s.stop terms).instant s.opened

/-- A run that has come to the given stop, if nothing ended it before. -/
structure Stops (s : Session) (terms : Terms) (stop : Nat) (r : Report) : Prop where
  /-- From the stop on nothing is accepted but a hangup. -/
  quiet : ∀ w ∈ r.writes, stop ≤ w.time → w.state = some .draining
  hangup : (r.writes.filter (·.state = some .draining)).flatMap Written.bytes <+: encodeHangup
  ends : r.halves.ending.time < stop ∨ r.halves.ending.time = stop ∧ r.halves.ending.half = .inbound ∨
    r.halves.ending = ⟨stop, .outbound, .ok (if terms.cancel.any (· ≤ stop) then .cancelled else .deadlineElapsed)⟩
  reported : r.result.map Summary.disposition = r.halves.ending.verdict
  elapsed : ∀ summary, r.result = .ok summary → summary.disposition = .deadlineElapsed →
    s.opened + s.span terms ≤ r.halves.ending.time
  cancelled : ∀ summary, r.result = .ok summary → summary.disposition = .cancelled →
    ∃ c, terms.cancel = some c ∧ c ≤ r.halves.ending.time
  aligned : r.halves.outbound.phase.isAligned = true ↔
    ∃ ms : List Message, Transfer.bytesOf r.halves.outbound.pieces = ms.flatMap Message.encode
  frames : r.halves.sent.frames ≤ Set.ncard {k | 1 ≤ k ∧ s.opened + k * s.config.cadence < stop}

theorem opened_le_deadline (s : Session) (terms : Terms) : s.opened ≤ (s.stop terms).deadline :=
  Nat.le_trans (Nat.le_add_right _ _) (terms.clock.le_wake _)

/-- A cancellation has come by the deadline if it has come by the stop. -/
theorem stop_reason (s : Session) (terms : Terms) :
    (s.stop terms).reason = if terms.cancel.any (· ≤ s.stopsAt terms) then .cancelled else .deadlineElapsed := by
  have hopened := s.opened_le_deadline terms
  have hcancel : (s.stop terms).cancel = terms.cancel := rfl
  unfold Stop.reason stopsAt Stop.instant
  rw [hcancel]
  cases terms.cancel with
  | none => rfl
  | some c =>
    have hiff : c ≤ (s.stop terms).deadline ↔ c ≤ max s.opened (min c (s.stop terms).deadline) := by omega
    simp only [Option.any_some, hiff]

/-- Without a cancellation by then, the stop is not before the deadline. -/
theorem deadline_le_stopsAt (h : (s.stop terms).reason = .deadlineElapsed) : (s.stop terms).deadline ≤ s.stopsAt terms := by
  unfold Stop.reason at h
  split at h
  · cases h
  · next hnone =>
    have hcancel : (s.stop terms).cancel = terms.cancel := rfl
    unfold stopsAt Stop.instant
    rw [hcancel] at hnone ⊢
    cases hc : terms.cancel with
    | none => exact Nat.le_max_right _ _
    | some c =>
      have hlate : ¬ c ≤ (s.stop terms).deadline := by simpa [hc] using hnone
      show (s.stop terms).deadline ≤ max s.opened (min c (s.stop terms).deadline)
      omega

/-! ### The run -/

theorem cut_le_stopsAt : s.cut leg terms ≤ s.stopsAt terms := by
  unfold cut
  split
  · exact Nat.min_le_left _ _
  · exact Nat.le_refl _

theorem cut_le_cutFor (terms : Terms) {t : Nat} {e : InboundEnd} (hi : (s.inbound leg).ending = some (t, e)) :
    s.cut leg terms ≤ cutFor terms.first t := by
  unfold cut
  rw [hi]
  exact Nat.min_le_right _ _

theorem run?_ends (h : s.run? leg terms = some report) :
    Ends terms.first (s.stopsAt terms) (s.stop terms).reason report.halves.outbound
      (s.inbound leg).ending report.halves.ending := by
  rw [(run?_relays h).1]
  exact relay_ends

theorem le_cutFor (first : Half) (t : Nat) : t ≤ cutFor first t := by
  cases first with
  | outbound => exact Nat.le_succ t
  | inbound => exact Nat.le_refl t

theorem cutFor_le (first : Half) (t : Nat) : cutFor first t ≤ t + 1 := by
  cases first with
  | outbound => exact Nat.le_refl _
  | inbound => exact Nat.le_succ t

theorem run?_stopped (h : s.run? leg terms = some report) : report.halves.ending.time < s.stopsAt terms ∨
    report.halves.ending.time = s.stopsAt terms ∧ report.halves.ending.half = .inbound ∨
    report.halves.ending = ⟨s.stopsAt terms, .outbound, .ok (s.stop terms).reason⟩ := by
  have hends := run?_ends h
  -- The half is cut no later than the stop, so that its own end comes before.
  have htime : report.halves.outbound.ending ≠ .cut → report.halves.outbound.time < s.stopsAt terms := fun hne =>
    Nat.lt_of_lt_of_le (run?_time_lt_cut h hne) cut_le_stopsAt
  generalize report.halves.ending = ended at hends ⊢
  cases hends with
  | exhausted ho => exact Or.inl (htime (ho ▸ nofun))
  | failed e ho => exact Or.inl (htime (ho ▸ nofun))
  | stopped ho hi => exact Or.inr (Or.inr rfl)
  | inbound t e ho hi hstop =>
    have hle := Nat.le_trans (le_cutFor terms.first t) hstop
    rcases Nat.lt_or_eq_of_le hle with hlt | heq
    · exact Or.inl hlt
    · exact Or.inr (Or.inl ⟨heq, rfl⟩)

theorem run?_reported (h : s.run? leg terms = some report) :
    report.result.map Summary.disposition = report.halves.ending.verdict := by
  rw [(run?_relays h).2.2, Halves.result]
  cases report.halves.ending.verdict with
  | error e => rfl
  | ok d => rfl

/-- Only the stop ends a session as cancelled or for its deadline. -/
theorem run?_reason {summary : Summary} (h : s.run? leg terms = some report) (hr : report.result = .ok summary)
    (hd : summary.disposition = .cancelled ∨ summary.disposition = .deadlineElapsed) :
    report.halves.ending.time = s.stopsAt terms ∧ (s.stop terms).reason = summary.disposition := by
  have hverdict : report.halves.ending.verdict = .ok summary.disposition := by
    rw [← run?_reported h, hr]
    rfl
  have hends := run?_ends h
  generalize report.halves.ending = ended at hverdict hends ⊢
  cases hends with
  | exhausted ho =>
    rw [← Except.ok.inj hverdict] at hd
    rcases hd with hd | hd <;> cases hd
  | failed e ho => cases hverdict
  | stopped ho hi => exact ⟨rfl, Except.ok.inj hverdict⟩
  | inbound t e ho hi hstop =>
    cases e with
    | failed e => cases hverdict
    | peerHangup | peerClosed =>
      rw [← Except.ok.inj hverdict] at hd
      rcases hd with hd | hd <;> cases hd

theorem cancelled_of_reason (h : (s.stop terms).reason = .cancelled) :
    ∃ c, terms.cancel = some c ∧ c ≤ s.stopsAt terms := by
  rw [stop_reason] at h
  split at h
  · next hany =>
    cases hc : terms.cancel with
    | none => simp [hc] at hany
    | some c => exact ⟨c, rfl, by simpa [hc] using hany⟩
  · cases h

theorem run?_writes (h : s.run? leg terms = some report) :
    report.writes = writtenIn (some .streaming) report.halves.outbound.pieces ++
    writtenIn (some .draining) (hangUp s terms.clock report.halves).pieces :=
  (run?_relays h).2.1

theorem filter_writtenIn_self (state : Option SessionState) (pieces : List (Nat × Bytes)) :
    (writtenIn state pieces).filter (·.state = state) = writtenIn state pieces := by
  refine List.filter_eq_self.mpr fun w hw => ?_
  obtain ⟨p, -, rfl⟩ := List.mem_map.mp hw
  exact decide_eq_true rfl

theorem filter_writtenIn_of_ne {state other : Option SessionState} (h : other ≠ state) (pieces : List (Nat × Bytes)) :
    (writtenIn other pieces).filter (·.state = state) = [] := by
  refine List.filter_eq_nil_iff.mpr fun w hw => ?_
  obtain ⟨p, -, rfl⟩ := List.mem_map.mp hw
  exact fun heq => h (of_decide_eq_true heq)

/-- The wait for the deadline ends at the first instant at which waits can end, and every run comes to its stop then
    or when it is cancelled. -/
theorem stops_in_time (h : s.run? leg terms = some report) :
    (s.opened + s.span terms ≤ (s.stop terms).deadline ∧
      (s.stop terms).deadline < s.opened + s.span terms + terms.clock.grain ∧
      (terms.clock.grain ∣ s.opened + s.span terms → (s.stop terms).deadline = s.opened + s.span terms)) ∧
    Stops s terms (s.stopsAt terms) report := by
  have hscheduled := run?_scheduled h
  refine ⟨⟨Clock.le_wake _ _, Clock.wake_lt _ _, Clock.wake_of_dvd _⟩, ?_⟩
  constructor
  · intro w hw hstop
    rw [run?_writes h] at hw
    rcases List.mem_append.mp hw with hw | hw
    · obtain ⟨p, hp, rfl⟩ := List.mem_map.mp hw
      have hlt := Nat.lt_of_lt_of_le (hscheduled.pieces p hp).1 cut_le_stopsAt
      exact absurd hstop (Nat.not_le_of_lt hlt)
    · obtain ⟨p, hp, rfl⟩ := List.mem_map.mp hw
      rfl
  · rw [run?_writes h, List.filter_append, filter_writtenIn_of_ne (by decide), filter_writtenIn_self, List.nil_append,
      bytes_writtenIn]
    exact (hangUp_bytes s terms.clock report.halves).1
  · rw [← stop_reason]
    exact run?_stopped h
  · exact run?_reported h
  · intro summary hr hd
    obtain ⟨htime, hreason⟩ := run?_reason h hr (Or.inr hd)
    rw [htime]
    calc s.opened + s.span terms ≤ (s.stop terms).deadline := Clock.le_wake _ _
      _ ≤ s.stopsAt terms := deadline_le_stopsAt (hreason.trans hd)
  · intro summary hr hd
    obtain ⟨htime, hreason⟩ := run?_reason h hr (Or.inl hd)
    rw [htime]
    exact cancelled_of_reason (hreason.trans hd)
  · refine Outbound.isAligned_iff ?_ fun p hp => (hscheduled.pieces p hp).2
    obtain ⟨p, -, -, -, hout⟩ := run?_outbound h
    rw [hout]
    exact Outbound.run_framed _ _ _ _ _ _ _ _
  · exact hscheduled.length_sent_le s.valid.cadence_pos (s.le_tick _) cut_le_stopsAt

end Run

/-! ### A session that is stopped -/

def cancelledTerms : Terms := { stalledTerms with cancel := some (Span.ofMillis 90) }

theorem cancelled_stops : ∃ r, quiet.run? stalledLeg cancelledTerms = some r ∧ r.halves.ending.time = Span.ofMillis 90 ∧
    r.halves.outbound.pieces.map Prod.fst = [20, 70, 80].map Span.ofMillis ∧
    Stops quiet cancelledTerms (Span.ofMillis 90) r := by
  obtain ⟨r, hrun, htime, hpieces⟩ : ∃ r, quiet.run? stalledLeg cancelledTerms = some r ∧
      r.halves.ending.time = Span.ofMillis 90 ∧ r.halves.outbound.pieces.map Prod.fst = [20, 70, 80].map Span.ofMillis := by
    with_unfolding_all exact ⟨_, rfl, rfl, rfl⟩
  have hstop : quiet.stopsAt cancelledTerms = Span.ofMillis 90 := by decide +kernel
  exact ⟨r, hrun, htime, hpieces, hstop ▸ (stops_in_time hrun).2⟩

/-- Waits end on whole milliseconds only. -/
def roughTerms : Terms := { clock := { origin := 0, grain := 1000000 }, deadline := 1250000 }

/-- The deadline is no instant at which a wait can end, and the session goes on until the next one. -/
theorem deadline_overrun : ∃ r, quiet.run? stalledLeg roughTerms = some r ∧ roughTerms.cancel = none ∧
    roughTerms.clock.add? quiet.opened roughTerms.deadline = some 1250000 ∧ (quiet.inbound stalledLeg).ending = none ∧
    r.halves.ending = ⟨2000000, .outbound, .ok .deadlineElapsed⟩ ∧ r.halves.ending.time ≠ 1250000 := by
  obtain ⟨r, hrun, hcancel, hdeadline, hinbound, hending⟩ : ∃ r, quiet.run? stalledLeg roughTerms = some r ∧
      roughTerms.cancel = none ∧ roughTerms.clock.add? quiet.opened roughTerms.deadline = some 1250000 ∧
      (quiet.inbound stalledLeg).ending = none ∧ r.halves.ending = ⟨2000000, .outbound, .ok .deadlineElapsed⟩ := by
    with_unfolding_all exact ⟨_, rfl, rfl, rfl, rfl, rfl⟩
  refine ⟨r, hrun, hcancel, hdeadline, hinbound, hending, ?_⟩
  rw [hending]
  decide

end Session
end CallRelay
