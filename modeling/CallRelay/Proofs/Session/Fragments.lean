import CallRelay.Proofs.Session.Draining
import CallRelay.Proofs.Transfer.Fragments

/-! # Fragmented sessions

However few bytes a write takes, a session sends the same bytes at the same instants and in the same states, and it comes to
the same end. The identity, the messages and the hangup may be cut into other pieces, and nothing else tells. -/

namespace CallRelay

/-! ### What can be seen -/

/-- The bytes of a piece, each with its instant and the state of the session. -/
def Written.stamped (w : Written) : List (Nat × Option SessionState × UInt8) := w.bytes.map (w.time, w.state, ·)

namespace Session

/-- What can be seen of a run: the bytes accepted, when the source was asked, what the inbound half did, and all that
    the run published, returned and logged. -/
structure Seen where
  accepted : List (Nat × Option SessionState × UInt8)
  requests : List Nat
  inbound : List (Nat × InboundAct)
  states : List (Nat × SessionState)
  attempt : Option Nat
  shutdown : Nat × SessionState
  time : Nat
  result : Except RelayError Summary
  lines : List Line

def Report.seen (r : Report) : Seen :=
  ⟨r.writes.flatMap Written.stamped, r.halves.outbound.requests, r.halves.inbound, r.states, r.attempt, r.shutdown, r.time,
    r.result, r.lines⟩

/-- What becomes of a session: it is not opened, or it is run, unless the clock has no instant for that. -/
inductive Outcome
  | refused (time : Nat) (e : RelayError)
  | stuck
  | ran (identity : Identity) (opened : Nat) (run : Option Seen)

/-- What can be seen of a session from its opening on. -/
structure Course where
  accepted : List (Nat × UInt8)
  shutdown : Option Nat
  lines : List Line
  outcome : Outcome

def course {σ κ η : Type} (o : Opening) (leg : Leg σ κ η) (terms : Terms) : Course where
  accepted := Transfer.stamped o.pieces
  shutdown := o.shutdown
  lines := o.lines
  outcome :=
    match o.ending with
    | .refused t e => .refused t e
    | .stuck => .stuck
    | .opened s => .ran s.identity s.opened ((s.run? leg terms).map Report.seen)

theorem stamped_writtenIn (state : Option SessionState) (pieces : List (Nat × Bytes)) :
    (writtenIn state pieces).flatMap Written.stamped = (Transfer.stamped pieces).map fun b => (b.1, state, b.2) := by
  induction pieces with
  | nil => rfl
  | cons p ps ih =>
    obtain ⟨t, b⟩ := p
    rw [Transfer.stamped_cons, List.map_append, ← ih, List.map_map]
    rfl

end Session

/-! ### Halves and efforts -/

open Transfer (stamped)
variable {α : Type}

theorem Session.Halves.of_alike {view : List (Nat × Bytes) → α} {o o' : Outbound} (h : Outbound.Alike view o o')
    (first : Half) (stop : Nat) (reason : Disposition) (i : Inbound) :
    (of first stop reason o i).inbound = (of first stop reason o' i).inbound ∧
      (of first stop reason o i).ending = (of first stop reason o' i).ending := by
  have hend : Session.ending first stop reason o i.ending = Session.ending first stop reason o' i.ending := by
    unfold Session.ending
    rw [h.ending, h.time]
  refine ⟨?_, hend⟩
  unfold of
  simp only [hend]

theorem Outbound.Alike.stamped_phase {p q : Phase} (h : Phase.Alike stamped p q) : stamped p.pieces = stamped q.pieces := by
  cases h with
  | sending hxy => exact hxy.pieces
  | _ => rfl

theorem Outbound.Alike.stamped_pieces {o o' : Outbound} (h : Alike stamped o o') :
    stamped o.pieces = stamped o'.pieces := by
  have hturns := h.map_turns (stamped ∘ Turn.pieces) fun _ _ hxy => hxy.pieces
  have hflat : ∀ turns : List Turn, stamped (turns.flatMap Turn.pieces) = (turns.map (stamped ∘ Turn.pieces)).flatten := by
    intro turns
    rw [stamped, List.flatMap_assoc, List.flatMap_def]
    rfl
  rw [pieces, pieces, Transfer.stamped_append, Transfer.stamped_append, hflat, hflat, hturns, stamped_phase h.phase]

section Fragments
variable {o o' : Outflow} {m m' : Mark}

/-- Transfers that fragment writes differently are alike wherever they are cut. -/
theorem send_alike (ho : o.Refragments o') (hm : m.accepted = m'.accepted) (limit : Nat) (b : Bytes) (now : Nat) :
    Transfer.Alike stamped Mark.accepted limit (o.send m b now) (o'.send m' b now) := by
  obtain ⟨hstamped, hending, hmark⟩ := ho.send hm b now
  refine .of_ending hending hstamped hmark ?_
  rw [Transfer.stamped_before, Transfer.stamped_before, hstamped]

namespace Effort

def seen (e : Effort) : List (Nat × UInt8) × Nat × List Line × Option Nat := (stamped e.pieces, e.time, e.lines, e.attempt)

theorem hangup_fragments (ho : o.Refragments o') (hm : m.accepted = m'.accepted) (clock : Clock) (now limit : Nat)
    (tag : Label) :
    (hangup clock o m now limit tag).seen = (hangup clock o' m' now limit tag).seen := by
  obtain ⟨hstamped, hending, -⟩ := ho.send hm encodeHangup now
  have hlate : stamped (Transfer.before (clock.expiry now limit + 1) (o.send m encodeHangup now).pieces) =
      stamped (Transfer.before (clock.expiry now limit + 1) (o'.send m' encodeHangup now).pieces) := by
    rw [Transfer.stamped_before, Transfer.stamped_before, hstamped]
  unfold hangup seen
  simp only [← hending]
  split
  · split
    · rw [hstamped]
    · rw [hlate]
  · split
    · rw [hstamped]
    · rw [hlate]
  · rw [hlate]

theorem shutdown_fragments (ho : o.Refragments o') (clock : Clock) (now limit : Nat) (tag : Label) :
    shutdown clock o now limit tag = shutdown clock o' now limit tag := by
  unfold shutdown
  rw [ho.shutdown, ho.shutdownDelay]

end Effort

namespace Session
variable {s : Session}

/-- The session on a connection with the write side `out`, which has been used as far as `mark`. -/
def sentOver (s : Session) (out : Outflow) (mark : Mark) : Session := { s with outflow := out, mark }

theorem hangUp_fragments (ho : s.outflow.Refragments o') (hm : s.mark.accepted = m.accepted) (clock : Clock) {h h' : Halves}
    (hout : Outbound.Alike stamped h.outbound h'.outbound) (hend : h.ending = h'.ending)
    (hne : ∀ p ∈ h.outbound.pieces, p.2 ≠ []) (hne' : ∀ p ∈ h'.outbound.pieces, p.2 ≠ []) :
    (hangUp s clock h).seen = (hangUp (s.sentOver o' m) clock h').seen := by
  have haligned : h.outbound.phase.isAligned = h'.outbound.phase.isAligned := by
    rw [Phase.isAligned, Phase.isAligned, Transfer.isEmpty_of_stamped fun p hp => hne p (List.mem_append_right _ hp),
      Transfer.isEmpty_of_stamped fun p hp => hne' p (List.mem_append_right _ hp), Outbound.Alike.stamped_phase hout.phase]
  have hmark : (Transfer.markAfter s.mark h.outbound.pieces).accepted =
      (Transfer.markAfter m h'.outbound.pieces).accepted := by
    rw [Transfer.markAfter, Transfer.markAfter, hm, Transfer.bytesOf_of_stamped hout.stamped_pieces]
  have hdrains : h.drains = h'.drains := by rw [Halves.drains, Halves.drains, hend]
  unfold hangUp
  simp only [hdrains, haligned, hend]
  split
  · split
    · exact Effort.hangup_fragments ho hmark _ _ _ _
    · rfl
  · rfl

theorem close_fragments (ho : s.outflow.Refragments o') (hm : s.mark.accepted = m.accepted) (clock : Clock) {h h' : Halves}
    (hout : Outbound.Alike stamped h.outbound h'.outbound) (hin : h.inbound = h'.inbound) (hend : h.ending = h'.ending)
    (hne : ∀ p ∈ h.outbound.pieces, p.2 ≠ []) (hne' : ∀ p ∈ h'.outbound.pieces, p.2 ≠ []) :
    (close s clock h).seen = (close (s.sentOver o' m) clock h').seen := by
  obtain ⟨hpieces, htimes⟩ := Prod.mk.inj (hangUp_fragments ho hm clock hout hend hne hne')
  obtain ⟨htime, hrest⟩ := Prod.mk.inj htimes
  obtain ⟨hlines, hattempt⟩ := Prod.mk.inj hrest
  have hclosing : Effort.shutdown clock s.outflow (hangUp s clock h).time s.config.drainTimeout s.tag =
      Effort.shutdown clock o' (hangUp (s.sentOver o' m) clock h').time s.config.drainTimeout s.tag := by
    rw [Effort.shutdown_fragments ho, htime]
  have hdrains : h.drains = h'.drains := by rw [Halves.drains, Halves.drains, hend]
  have hsent : h.sent = h'.sent := congrArg Traffic.of hout.sent
  have hreceived : h.received = h'.received := by rw [Halves.received, Halves.received, hin]
  have hresult : h.result s.identity = h'.result s.identity := by rw [Halves.result, Halves.result, hend, hsent, hreceived]
  have hlast : lastLine s.tag h = lastLine s.tag h' := by rw [lastLine, lastLine, hend, hsent, hreceived]
  have hdrain : drainLines s.tag h = drainLines s.tag h' := by rw [drainLines, drainLines, hend]
  have hlog : h.lines s.tag = h'.lines s.tag := by rw [Halves.lines, Halves.lines, hin, hout.lines]
  simp only [close, Report.seen, Seen.mk.injEq]
  refine ⟨?_, hout.requests, hin, ?_, hattempt, ?_, ?_, hresult, ?_⟩
  · simp only [List.flatMap_append, stamped_writtenIn]
    rw [hout.stamped_pieces, hpieces]
  · rw [hclosing, hdrains, hend]
    rfl
  · rw [hdrains, htime]
  · rw [hclosing]
    rfl
  · rw [hclosing, hlog, hdrain, hlast, hlines]
    rfl

section Run
variable {σ κ η : Type} {leg : Leg σ κ η} {terms : Terms} {r : Report}

/-- A run is the close of its halves, with a line about its start. -/
theorem run?_eq_close (h : s.run? leg terms = some r) : r = { close s terms.clock r.halves with
    lines := startLine s.tag terms.deadline :: (close s terms.clock r.halves).lines } := by
  unfold run? at h
  obtain ⟨deadline, -, h⟩ := Option.bind_eq_some_iff.mp h
  obtain ⟨due, -, h⟩ := Option.bind_eq_some_iff.mp h
  cases h
  rfl

theorem outboundUntil_fragments (ho : s.outflow.Refragments o') (hm : s.mark.accepted = m.accepted) (clock : Clock)
    (limit : Nat) :
    Outbound.Alike stamped (s.outboundUntil leg clock limit) ((s.sentOver o' m).outboundUntil leg clock limit) :=
  Outbound.run_alike leg.source _ leg.voice s.mark s.opened _ hm fun _ turn w _ _ _ _ hm' =>
    send_alike ho hm' limit w turn.began

theorem run?_pieces_ne_nil (h : s.run? leg terms = some r) : ∀ p ∈ r.halves.outbound.pieces, p.2 ≠ [] :=
  fun p hp => ((run?_scheduled h).pieces p hp).2

theorem run?_fragments (ho : s.outflow.Refragments o') (hm : s.mark.accepted = m.accepted) :
    (s.run? leg terms).map Report.seen = ((s.sentOver o' m).run? leg terms).map Report.seen := by
  have hclock : (s.run? leg terms).isSome ↔ ((s.sentOver o' m).run? leg terms).isSome := by
    rw [run?_isSome_iff, run?_isSome_iff]
    rfl
  cases h : s.run? leg terms with
  | none =>
    cases h' : (s.sentOver o' m).run? leg terms with
    | none => rfl
    | some r' =>
      rw [h, h'] at hclock
      cases hclock.mpr rfl
  | some r =>
    rw [h] at hclock
    obtain ⟨r', h'⟩ := Option.isSome_iff_exists.mp (hclock.mp rfl)
    have hout : Outbound.Alike stamped r.halves.outbound r'.halves.outbound := by
      rw [run?_outboundUntil h, run?_outboundUntil h']
      exact outboundUntil_fragments ho hm _ _
    obtain ⟨hin, hend⟩ : r.halves.inbound = r'.halves.inbound ∧ r.halves.ending = r'.halves.ending := by
      rw [run?_outboundUntil h, run?_outboundUntil h'] at hout
      rw [run?_halves h, run?_halves h']
      exact Halves.of_alike hout _ _ _ _
    have hclose := close_fragments ho hm terms.clock hout hin hend (run?_pieces_ne_nil h) (run?_pieces_ne_nil h')
    have hseen : r.seen = r'.seen := by
      rw [run?_eq_close h, run?_eq_close h']
      show { (close s terms.clock r.halves).seen with
          lines := startLine s.tag terms.deadline :: (close s terms.clock r.halves).seen.lines } = _
      rw [hclose]
      rfl
    rw [h', Option.map_some, Option.map_some, hseen]

/-- Sessions on connections that differ only in how many bytes a write takes cannot be told apart. -/
theorem fragments_invisible (hout : o.Refragments o') (inflow : Inflow) (id : Identity) (config : Config) (now : Nat)
    (leg : Leg σ κ η) (terms : Terms) :
    course (dial ⟨inflow, o⟩ id config now) leg terms = course (dial ⟨inflow, o'⟩ id config now) leg terms := by
  obtain ⟨hstamped, hending, hmark⟩ := hout.send (rfl : ({} : Mark).accepted = ({} : Mark).accepted) (encodeIdentity id) now
  unfold dial
  split
  · rfl
  · simp only [← hending]
    split
    · simp only [course, hstamped, Course.mk.injEq, true_and, Outcome.ran.injEq]
      exact ⟨rfl, rfl, run?_fragments hout hmark⟩
    · simp only [course, hstamped]
    · simp only [course, hstamped]

end Run

/-! ### A session in two kinds of pieces -/

/-- A message of five bytes and a part of the next one are accepted, one or two bytes at a time, and then no more. -/
def raggedLine : Outflow :=
  { grants := some [⟨0, 25⟩, ⟨0, 0⟩, ⟨Span.ofMillis 50, 1⟩, ⟨Span.ofMillis 50, 2⟩], most := fun n => n % 2 + 1,
    breaks := some (27, .zero) }

/-- The same, with as many bytes at a time as there is credit for. -/
def smoothLine : Outflow :=
  { raggedLine with
    grants := some [⟨Span.ofMillis 50, 3⟩, ⟨0, 25⟩]
    most := fun _ => headerLength + maxPayload }

theorem ragged_refragments : raggedLine.Refragments smoothLine where
  takes n := Nat.le_add_left 1 (n % 2)
  takes' _ := by
    show 1 ≤ headerLength + maxPayload
    decide
  credit t := by
    by_cases h : Span.ofMillis 50 ≤ t
    · simp [raggedLine, smoothLine, Outflow.credit, total, h]
    · simp [raggedLine, smoothLine, Outflow.credit, total, h]
  breaks := rfl
  breakDelay := rfl
  shutdown := rfl
  shutdownDelay := rfl

theorem ragged_unseen : course (dial ⟨[], raggedLine⟩ (.repeated 7) { frameSize := 2 } 0) oddLeg stalledTerms =
      course (dial ⟨[], smoothLine⟩ (.repeated 7) { frameSize := 2 } 0) oddLeg stalledTerms ∧
    (dial ⟨[], raggedLine⟩ (.repeated 7) { frameSize := 2 } 0).pieces ≠
      (dial ⟨[], smoothLine⟩ (.repeated 7) { frameSize := 2 } 0).pieces ∧
    ∃ run, (course (dial ⟨[], raggedLine⟩ (.repeated 7) { frameSize := 2 } 0) oddLeg stalledTerms).outcome =
        .ran (.repeated 7) 0 (some run) ∧ run.time = Span.ofMillis 50 ∧
      run.result = .error (.writeFailure FaultKind.writeZero.fault) := by
  refine ⟨fragments_invisible ragged_refragments _ _ _ _ _ _, ?_, ?_⟩
  · with_unfolding_all decide
  · with_unfolding_all exact ⟨_, rfl, rfl, rfl⟩

end Session
end Fragments
end CallRelay
