import CallRelay.Proofs.Outbound.Course
import CallRelay.Proofs.Playing
import CallRelay.Proofs.Session.Accepting

/-! # The life of a session

A session publishes that it streams, relays audio, drains if its outbound half has ended it without an error, shuts
its connection down and is closed. Audio is accepted only while it streams and a hangup only while it drains, on every
path, whatever the peer, the source and the connection do. -/

namespace CallRelay

/-! ### The end of a session in time -/

namespace Effort

/-- An effort that is begun at `now`: its pieces come one after another, and its end behind them. -/
structure Lasts (now : Nat) (e : Effort) : Prop where
  begun : ∀ t, e.attempt = some t → t = now
  timely : Timely now e.pieces
  pieces_le : ∀ p ∈ e.pieces, p.1 ≤ e.time
  le_time : now ≤ e.time

theorem lasts_nil {now t : Nat} (lines : List Line) (h : now ≤ t) : Lasts now ⟨[], t, lines, none⟩ :=
  ⟨nofun, .nil, nofun, h⟩

theorem hangup_lasts (clock : Clock) (out : Outflow) (mark : Mark) (now limit : Nat) (tag : Label) :
    Lasts now (Effort.hangup clock out mark now limit tag) := by
  have hd := send_delivers out mark encodeHangup now
  have hbegun : ∀ t, some now = some t → t = now := fun t ht => (Option.some.inj ht).symm
  have hlate : ∀ lines, Lasts now ⟨Transfer.before (clock.expiry now limit + 1) (out.send mark encodeHangup now).pieces,
      clock.expiry now limit, lines, some now⟩ := by
    intro lines
    refine ⟨hbegun, hd.timely.filter _, fun p hp => ?_, clock.le_expiry now limit⟩
    have hlt := (List.mem_filter.mp hp).2
    exact Nat.le_of_lt_succ (of_decide_eq_true hlt)
  unfold hangup
  simp only
  split
  · next t he =>
    obtain ⟨hle, hall⟩ := hd.le_ending (Or.inl he)
    split
    · exact ⟨hbegun, hd.timely, hall, hle⟩
    · exact hlate _
  · next t f he =>
    obtain ⟨hle, hall⟩ := hd.le_ending (Or.inr ⟨f, he⟩)
    split
    · exact ⟨hbegun, hd.timely, hall, hle⟩
    · exact hlate _
  · exact hlate _

theorem hangup_attempt (clock : Clock) (out : Outflow) (mark : Mark) (now limit : Nat) (tag : Label) :
    (Effort.hangup clock out mark now limit tag).attempt = some now := by
  unfold hangup
  simp only
  split
  · split <;> rfl
  · split <;> rfl
  · rfl

end Effort

namespace Session

theorem hangUp_lasts (s : Session) (clock : Clock) (h : Halves) : Effort.Lasts h.ending.time (hangUp s clock h) := by
  unfold hangUp
  simp only
  split
  · split
    · exact Effort.hangup_lasts _ _ _ _ _ _
    · exact Effort.lasts_nil _ (Nat.le_refl _)
  · exact Effort.lasts_nil _ (Nat.le_refl _)

/-- A hangup is begun at the end of the halves, if it is begun. -/
theorem hangUp_attempt (s : Session) (clock : Clock) (h : Halves) : (hangUp s clock h).attempt =
    if h.drains = true ∧ h.outbound.phase.isAligned = true then some h.ending.time else none := by
  unfold hangUp
  simp only
  split
  · next hd =>
    split
    · next hal => rw [if_pos ⟨hd, hal⟩, Effort.hangup_attempt]
    · next hal => rw [if_neg fun h => hal h.2]
  · next hd => rw [if_neg fun h => hd h.1]

theorem attempt_ne_none_iff {s : Session} {clock : Clock} {h : Halves} :
    (hangUp s clock h).attempt ≠ none ↔ h.drains = true ∧ h.outbound.phase.isAligned = true := by
  rw [hangUp_attempt]
  split
  · next hd => exact iff_of_true nofun hd
  · next hd => exact iff_of_false (fun hne => hne rfl) hd

/-! ### The life -/

/-- Something that happens in the life of a session. -/
inductive Deed
  | published (state : SessionState)
  | accepted (b : Bytes)
  /-- Sending a hangup is begun. -/
  | hangsUp
  | shutDown
  deriving DecidableEq

def acceptances (pieces : List (Nat × Bytes)) : List (Nat × Deed) := pieces.map fun p => (p.1, .accepted p.2)

def statesOf (life : List (Nat × Deed)) : List (Nat × SessionState) :=
  life.filterMap fun d => match d.2 with | .published state => some (d.1, state) | _ => none

/-- What is accepted, each piece in the state that was published last. -/
def writtenBy : Option SessionState → List (Nat × Deed) → List Written
  | _, [] => []
  | _, (_, .published state) :: life => writtenBy (some state) life
  | state, (t, .accepted b) :: life => ⟨t, state, b⟩ :: writtenBy state life
  | state, (_, .hangsUp) :: life => writtenBy state life
  | state, (_, .shutDown) :: life => writtenBy state life

/-- When a deed that publishes nothing is done, and in the state that was published last. -/
def timesOf (deed : Deed) : Option SessionState → List (Nat × Deed) → List (Nat × Option SessionState)
  | _, [] => []
  | _, (_, .published state) :: life => timesOf deed (some state) life
  | state, (t, d) :: life => if d = deed then (t, state) :: timesOf deed state life else timesOf deed state life

/-- The deed of beginning a hangup, if one is begun. -/
def beginnings (attempt : Option Nat) : List (Nat × Deed) := attempt.toList.map (·, .hangsUp)

theorem statesOf_published (t : Nat) (state : SessionState) (life : List (Nat × Deed)) :
    statesOf ((t, .published state) :: life) = (t, state) :: statesOf life := rfl

theorem statesOf_acceptances (pieces : List (Nat × Bytes)) (life : List (Nat × Deed)) :
    statesOf (acceptances pieces ++ life) = statesOf life := by
  induction pieces with
  | nil => rfl
  | cons p ps ih => exact ih

theorem writtenBy_acceptances (state : Option SessionState) (pieces : List (Nat × Bytes)) (life : List (Nat × Deed)) :
    writtenBy state (acceptances pieces ++ life) = writtenIn state pieces ++ writtenBy state life := by
  induction pieces with
  | nil => rfl
  | cons p ps ih => exact congrArg (⟨p.1, state, p.2⟩ :: ·) ih

theorem timesOf_acceptances {deed : Deed} (hdeed : ∀ b, deed ≠ .accepted b) (state : Option SessionState)
    (pieces : List (Nat × Bytes)) (life : List (Nat × Deed)) :
    timesOf deed state (acceptances pieces ++ life) = timesOf deed state life := by
  induction pieces with
  | nil => rfl
  | cons p ps ih => exact (if_neg (hdeed p.2).symm).trans ih

section Beginnings
variable (attempt : Option Nat) (state : Option SessionState) (life : List (Nat × Deed))

theorem statesOf_beginnings : statesOf (beginnings attempt ++ life) = statesOf life := by
  cases attempt <;> rfl

theorem writtenBy_beginnings : writtenBy state (beginnings attempt ++ life) = writtenBy state life := by
  cases attempt <;> rfl

theorem timesOf_shutDown_beginnings :
    timesOf .shutDown state (beginnings attempt ++ life) = timesOf .shutDown state life := by
  cases attempt <;> rfl

theorem timesOf_hangsUp_beginnings : timesOf .hangsUp state (beginnings attempt ++ life) =
    attempt.toList.map (·, state) ++ timesOf .hangsUp state life := by
  cases attempt <;> rfl

end Beginnings

/-- A life, in the order of time, of which a run is the report. -/
structure Reported (start : Nat) (life : List (Nat × Deed)) (r : Report) : Prop where
  timely : Timely start life
  states : statesOf life = r.states
  writes : writtenBy none life = r.writes
  shutdown : timesOf .shutDown none life = [(r.shutdown.1, some r.shutdown.2)]
  /-- A hangup is begun once at most, and while the session drains. -/
  attempts : timesOf .hangsUp none life = r.attempt.toList.map (·, some .draining)

theorem timely_acceptances {now t : Nat} {pieces : List (Nat × Bytes)} {life : List (Nat × Deed)} (hp : Timely now pieces)
    (hle : ∀ p ∈ pieces, p.1 ≤ t) (hnow : now ≤ t) (hl : Timely t life) : Timely now (acceptances pieces ++ life) := by
  refine (hp.map Deed.accepted).append (fun d hd => ?_) hnow hl
  obtain ⟨p, hp, rfl⟩ := List.mem_map.mp hd
  exact hle p hp

theorem timely_beginnings {now : Nat} {attempt : Option Nat} {life : List (Nat × Deed)}
    (hbegun : ∀ t, attempt = some t → t = now) (hl : Timely now life) : Timely now (beginnings attempt ++ life) := by
  cases attempt with
  | none => exact hl
  | some t =>
    cases hbegun t rfl
    exact .cons (Nat.le_refl now) hl

theorem hangUp_of_not_drains (s : Session) (clock : Clock) {h : Halves} (hd : h.drains = false) :
    (hangUp s clock h).pieces = [] := by
  unfold hangUp
  simp only [hd]
  rfl

/-- What a session does between its start and its shutdown. -/
def streams (s : Session) (clock : Clock) (h : Halves) : List (Nat × Deed) :=
  (s.opened, .published .starting) :: (s.opened, .published .streaming) :: (acceptances h.outbound.pieces ++
    if h.drains then
      (h.ending.time, .published .draining) ::
        (beginnings (hangUp s clock h).attempt ++ acceptances (hangUp s clock h).pieces)
    else [])

theorem close_reported (s : Session) (clock : Clock) (h : Halves) (hpieces : Timely s.opened h.outbound.pieces)
    (hle : ∀ p ∈ h.outbound.pieces, p.1 ≤ h.ending.time) (hopened : s.opened ≤ h.ending.time) :
    Reported s.opened (streams s clock h ++
      [((close s clock h).shutdown.1, .shutDown), ((close s clock h).time, .published .closed)]) (close s clock h) := by
  have hhangup := hangUp_lasts s clock h
  obtain ⟨hshut, -⟩ := Effort.shutdown_time clock s.outflow (hangUp s clock h).time s.config.drainTimeout s.tag
  have hlast : Timely (hangUp s clock h).time
      [((close s clock h).shutdown.1, Deed.shutDown), ((close s clock h).time, .published .closed)] :=
    .cons (Nat.le_refl _) (.cons hshut .nil)
  unfold streams
  simp only [List.cons_append, List.append_assoc]
  have hshutDown : ∀ b, Deed.shutDown ≠ .accepted b := nofun
  have hhangsUp : ∀ b, Deed.hangsUp ≠ .accepted b := nofun
  cases hd : h.drains with
  | true =>
    simp only [if_true, List.cons_append, List.append_assoc]
    constructor
    · refine .cons (Nat.le_refl _) (.cons (Nat.le_refl _) (timely_acceptances hpieces hle hopened ?_))
      refine .cons (Nat.le_refl _) (timely_beginnings hhangup.begun ?_)
      exact timely_acceptances hhangup.timely hhangup.pieces_le hhangup.le_time hlast
    · simp only [statesOf_published, statesOf_beginnings, statesOf_acceptances, close, hd]
      rfl
    · simp only [writtenBy, writtenBy_beginnings, writtenBy_acceptances, close, List.append_nil]
    · simp only [timesOf, timesOf_shutDown_beginnings, timesOf_acceptances hshutDown, close, hd]
      rfl
    · simp only [timesOf, timesOf_hangsUp_beginnings, timesOf_acceptances hhangsUp, close]
      exact List.append_nil _
  | false =>
    simp only [Bool.false_eq_true, if_false, List.nil_append]
    have hnone := hangUp_of_not_drains s clock hd
    have hattempt : (hangUp s clock h).attempt = none := by
      rw [hangUp_attempt, if_neg fun hboth => Bool.false_ne_true (hd.symm.trans hboth.1)]
    constructor
    · refine .cons (Nat.le_refl _) (.cons (Nat.le_refl _) (timely_acceptances hpieces hle hopened ?_))
      exact hlast.mono hhangup.le_time
    · simp only [statesOf_published, statesOf_acceptances, close, hd]
      rfl
    · simp only [writtenBy, writtenBy_acceptances, close, hnone]
      rfl
    · simp only [timesOf, timesOf_acceptances hshutDown, close, hd]
      rfl
    · simp only [timesOf, timesOf_acceptances hhangsUp, close, hattempt]
      rfl

/-! ### The run -/

section Run
variable {σ κ η : Type} {s : Session} {leg : Leg σ κ η} {terms : Terms} {r : Report}

theorem run?_closes (h : s.run? leg terms = some r) : r.states = (close s terms.clock r.halves).states ∧
    r.shutdown = (close s terms.clock r.halves).shutdown ∧ r.time = (close s terms.clock r.halves).time ∧
    r.attempt = (hangUp s terms.clock r.halves).attempt := by
  unfold run? at h
  obtain ⟨deadline, -, h⟩ := Option.bind_eq_some_iff.mp h
  obtain ⟨due, -, h⟩ := Option.bind_eq_some_iff.mp h
  cases h
  exact ⟨rfl, rfl, rfl, rfl⟩

theorem run?_isSome_iff : (s.run? leg terms).isSome ↔ (terms.clock.add? s.opened Clock.farFuture).isSome ∧
    (terms.clock.add? s.opened s.config.cadence).isSome := by
  unfold run? Clock.deadline?
  cases terms.clock.add? s.opened Clock.farFuture <;> cases terms.clock.add? s.opened s.config.cadence <;> simp

theorem run?_pieces (h : s.run? leg terms = some r) : Timely s.opened r.halves.outbound.pieces ∧
    (∀ p ∈ r.halves.outbound.pieces, p.1 ≤ r.halves.ending.time) ∧ s.opened ≤ r.halves.ending.time := by
  obtain ⟨p, -, -, -, hout⟩ := run?_outbound h
  obtain ⟨htimely, hle, hmin⟩ := Outbound.run_timely leg.source s.outflow p (s.cut leg terms) leg.voice s.mark s.opened
    (s.opened + s.config.cadence)
  rw [← hout] at htimely hle hmin
  have hcut : ∀ q ∈ r.halves.outbound.pieces, q.1 < s.cut leg terms := fun q hq => ((run?_scheduled h).pieces q hq).1
  have hends := run?_ends h
  have hself : r.halves.outbound.ending ≠ .cut → s.opened ≤ r.halves.outbound.time := by
    intro hne
    have hlt := run?_time_lt_cut h hne
    omega
  refine ⟨htimely, ?_⟩
  -- An outbound half that ends the session bounds its pieces itself; otherwise it is cut at the instant of the end.
  generalize r.halves.ending = ended at hends ⊢
  cases hends with
  | exhausted ho => exact ⟨hle, hself (ho ▸ nofun)⟩
  | failed e ho => exact ⟨hle, hself (ho ▸ nofun)⟩
  | stopped ho hi =>
    refine ⟨fun q hq => ?_, Nat.le_max_left _ _⟩
    exact Nat.le_of_lt (Nat.lt_of_lt_of_le (hcut q hq) cut_le_stopsAt)
  | inbound t e ho hi hstop =>
    have hplays := Inbound.run_plays leg.sink leg.handler s.reader leg.ear leg.watch s.opened
    refine ⟨fun q hq => ?_, hplays.le_ending hi⟩
    refine Nat.le_of_lt_succ ?_
    calc q.1 < s.cut leg terms := hcut q hq
      _ ≤ cutFor terms.first t := cut_le_cutFor terms hi
      _ ≤ t + 1 := cutFor_le terms.first t

theorem run?_reports (h : s.run? leg terms = some r) : ∃ before,
    Reported s.opened (before ++ [(r.shutdown.1, .shutDown), (r.time, .published .closed)]) r := by
  obtain ⟨hstates, hshutdown, htime, hattempt⟩ := run?_closes h
  obtain ⟨htimely, hle, hopened⟩ := run?_pieces h
  have hclose := close_reported s terms.clock r.halves htimely hle hopened
  refine ⟨streams s terms.clock r.halves, ?_⟩
  rw [hshutdown, htime]
  refine ⟨hclose.timely, hclose.states.trans hstates.symm, hclose.writes.trans (run?_relays h).2.1.symm, ?_, ?_⟩
  · rw [hclose.shutdown, hshutdown]
  · rw [hclose.attempts, hattempt]
    rfl

theorem run?_drains (h : s.run? leg terms = some r) : r.halves.drains = true ↔ r.halves.Normal := by
  constructor
  · intro hd
    rw [(run?_relays h).1] at hd ⊢
    exact relay_normal hd
  · rintro ⟨hhalf, ⟨-, hv⟩ | ⟨-, hv | hv⟩⟩ <;> simp only [Halves.drains, hhalf, hv]

theorem run?_states (h : s.run? leg terms = some r) :
    r.halves.Normal ∧ r.states.map Prod.snd = [.starting, .streaming, .draining, .closed] ∨
      ¬r.halves.Normal ∧ r.states.map Prod.snd = [.starting, .streaming, .closed] := by
  rw [(run?_closes h).1, ← run?_drains h, close]
  cases hd : r.halves.drains with
  | true => exact Or.inl ⟨rfl, rfl⟩
  | false => exact Or.inr ⟨Bool.false_ne_true, rfl⟩

theorem run?_ok_iff (h : s.run? leg terms = some r) {P : Disposition → Prop} :
    (∃ summary, r.result = .ok summary ∧ P summary.disposition) ↔ ∃ d, r.halves.ending.verdict = .ok d ∧ P d := by
  constructor
  · rintro ⟨summary, hok, hP⟩
    obtain ⟨d, hv, rfl⟩ := run?_ok h hok
    exact ⟨d, hv, hP⟩
  · rintro ⟨d, hv, hP⟩
    refine ⟨⟨s.identity, d, r.halves.sent, r.halves.received⟩, ?_, hP⟩
    rw [(run?_relays h).2.2, Halves.result, hv]
    rfl

theorem run?_error_iff (h : s.run? leg terms = some r) {e : RelayError} :
    r.result = .error e ↔ r.halves.ending.verdict = .error e := by
  rw [(run?_relays h).2.2, Halves.result]
  cases r.halves.ending.verdict with
  | error e' => simp [Except.map]
  | ok d => simp [Except.map]

/-- The dispositions of a session that its outbound half has ended. -/
def Drained (d : Disposition) : Prop := d = .completed ∨ d = .deadlineElapsed ∨ d = .cancelled

theorem run?_drained_iff (h : s.run? leg terms = some r) :
    (∃ summary, r.result = .ok summary ∧ Drained summary.disposition) ↔ r.halves.Normal := by
  rw [run?_ok_iff h]
  constructor
  · rintro ⟨d, hv, hd⟩
    rw [← run?_drains h]
    have hends := run?_ends h
    unfold Halves.drains
    generalize r.halves.ending = ended at hv hends ⊢
    cases hends with
    | exhausted ho => rfl
    | failed e ho => cases hv
    | stopped ho hi => rfl
    | inbound t e ho hi hstop =>
      cases e with
      | failed e => cases hv
      | peerHangup | peerClosed =>
        cases hv
        rcases hd with hd | hd | hd <;> cases hd
  · rintro ⟨-, ⟨-, hv⟩ | ⟨-, hv | hv⟩⟩
    · exact ⟨_, hv, Or.inl rfl⟩
    · exact ⟨_, hv, Or.inr (Or.inl rfl)⟩
    · exact ⟨_, hv, Or.inr (Or.inr rfl)⟩

theorem run?_peer_iff (h : s.run? leg terms = some r) {e : InboundEnd} {d : Disposition} (he : inboundVerdict e = .ok d) :
    (∃ summary, r.result = .ok summary ∧ summary.disposition = d) ↔
      r.halves.ending.half = .inbound ∧ ∃ t, (s.inbound leg).ending = some (t, e) := by
  rw [run?_ok_iff (P := (· = d)) h]
  constructor
  · rintro ⟨d', hv, rfl⟩
    have hends := run?_ends h
    generalize r.halves.ending = ended at hv hends ⊢
    cases hends with
    | exhausted ho =>
      cases hv
      cases e <;> cases he
    | failed e' ho => cases hv
    | stopped ho hi =>
      rcases reason_cases (s.stop terms) with hr | hr <;> rw [hr] at hv <;> cases hv <;> cases e <;> cases he
    | inbound t e' ho hi hstop =>
      refine ⟨rfl, t, ?_⟩
      rw [hi]
      cases e <;> cases he <;> cases e' <;> cases hv <;> rfl
  · rintro ⟨hin, t, hi⟩
    obtain ⟨-, t', e', hi', hend, -⟩ := run?_inbound h hin
    cases hi.symm.trans hi'
    rw [hend]
    exact ⟨d, he, rfl⟩

theorem run?_failed_iff (h : s.run? leg terms = some r) {e : RelayError} : r.result = .error e ↔
    r.halves.outbound.ending = .failed e ∨
      r.halves.ending.half = .inbound ∧ ∃ t, (s.inbound leg).ending = some (t, .failed e) := by
  rw [run?_error_iff h]
  have hends := run?_ends h
  generalize r.halves.ending = ended at hends ⊢
  cases hends with
  | exhausted ho => simp [ho]
  | failed e' ho => simp [ho]
  | stopped ho hi => simp [ho]
  | inbound t e' ho hi hstop => cases e' <;> simp [ho, hi, inboundVerdict]

end Run

/-- The life of a session on the given terms, as its run reports it. -/
structure Lives {σ κ η : Type} (s : Session) (leg : Leg σ κ η) (terms : Terms) (r : Report) : Prop where
  /-- The connection is shut down once, behind everything else that happens to it, and then the session is closed. -/
  life : ∃ before, Reported s.opened (before ++ [(r.shutdown.1, .shutDown), (r.time, .published .closed)]) r
  states : r.halves.Normal ∧ r.states.map Prod.snd = [.starting, .streaming, .draining, .closed] ∨
    ¬r.halves.Normal ∧ r.states.map Prod.snd = [.starting, .streaming, .closed]
  /-- Audio is accepted while the session streams, and the bytes of the attempt to hang up while it drains. -/
  writes : r.halves.outbound.Framed ∧ r.writes = writtenIn (some .streaming) r.halves.outbound.pieces ++
    writtenIn (some .draining) (hangUp s terms.clock r.halves).pieces
  hangup : Transfer.bytesOf (hangUp s terms.clock r.halves).pieces <+: encodeHangup ∧
    r.shutdown.1 = (hangUp s terms.clock r.halves).time
  attempts : r.attempt ≠ none ↔ .draining ∈ r.states.map Prod.snd ∧
    ∃ ms : List Message, Transfer.bytesOf r.halves.outbound.pieces = ms.flatMap Message.encode
  begun : ∀ t, r.attempt = some t → t = r.halves.ending.time
  drained : (∃ summary, r.result = .ok summary ∧ Drained summary.disposition) ↔ .draining ∈ r.states.map Prod.snd
  hungUp : (∃ summary, r.result = .ok summary ∧ summary.disposition = .peerHangup) ↔
    r.halves.ending.half = .inbound ∧ ∃ t, (s.inbound leg).ending = some (t, .peerHangup)
  closed : (∃ summary, r.result = .ok summary ∧ summary.disposition = .peerClosed) ↔
    r.halves.ending.half = .inbound ∧ ∃ t, (s.inbound leg).ending = some (t, .peerClosed)
  failed : ∀ e, r.result = .error e ↔ r.halves.outbound.ending = .failed e ∨
    r.halves.ending.half = .inbound ∧ ∃ t, (s.inbound leg).ending = some (t, .failed e)

section Run
variable {σ κ η : Type} {s : Session} {leg : Leg σ κ η} {terms : Terms} {r : Report}

theorem run?_lives (h : s.run? leg terms = some r) : Lives s leg terms r := by
  obtain ⟨p, -, -, -, hout⟩ := run?_outbound h
  have hframed : r.halves.outbound.Framed := by
    rw [hout]
    exact Outbound.run_framed _ _ _ _ _ _ _ _
  have hstates := run?_states h
  have hdraining : .draining ∈ r.states.map Prod.snd ↔ r.halves.Normal := by
    rcases hstates with ⟨hnormal, heq⟩ | ⟨hnormal, heq⟩
    · simp [heq, hnormal]
    · simp [heq, hnormal]
  have haligned := Outbound.isAligned_iff hframed fun p hp => ((run?_scheduled h).pieces p hp).2
  obtain ⟨-, hshutdown, -, hattempt⟩ := run?_closes h
  refine ⟨run?_reports h, hstates, ⟨hframed, run?_writes h⟩, ⟨(hangUp_bytes s terms.clock r.halves).1, ?_⟩, ?_, ?_, ?_,
    run?_peer_iff h rfl, run?_peer_iff h rfl, fun e => run?_failed_iff h⟩
  · rw [hshutdown, close]
  · rw [hattempt, attempt_ne_none_iff, run?_drains h, hdraining, haligned]
  · rw [hattempt]
    exact (hangUp_lasts s terms.clock r.halves).begun
  · rw [run?_drained_iff h, hdraining]

end Run

/-- A session that has been dialled has announced its identity before it exists. -/
theorem dial_before {conn : Connection} {id : Identity} {config : Config} {now : Nat} {s : Session}
    (h : (dial conn id config now).ending = .opened s) :
    Transfer.bytesOf (dial conn id config now).pieces = encodeIdentity id ∧ Timely now (dial conn id config now).pieces ∧
      ∀ p ∈ (dial conn id config now).pieces, p.1 ≤ s.opened := by
  have hd := send_delivers conn.outflow {} (encodeIdentity id) now
  unfold dial at h ⊢
  split at h
  · cases h
  · simp only at h
    split at h
    · next t he =>
      cases h
      simp only [he]
      exact ⟨hd.bytesOf_of_done he, hd.timely, (hd.le_ending (Or.inl he)).2⟩
    · cases h
    · cases h

/-- Every session that is run has such a life, whatever ends it. It is not run only if the clock has no instant for the
    first tick or for the deadline that stands in for those past its range. -/
theorem lifecycle {σ κ η : Type} (s : Session) (leg : Leg σ κ η) (terms : Terms) :
    ((s.run? leg terms).isSome ↔ (terms.clock.add? s.opened Clock.farFuture).isSome ∧
      (terms.clock.add? s.opened s.config.cadence).isSome) ∧
    (∀ r, s.run? leg terms = some r → Lives s leg terms r) ∧
    (∀ conn id config now, (dial conn id config now).ending = .opened s →
      Transfer.bytesOf (dial conn id config now).pieces = encodeIdentity id ∧
        Timely now (dial conn id config now).pieces ∧ ∀ p ∈ (dial conn id config now).pieces, p.1 ≤ s.opened) ∧
    ∀ clock conn config now, (accept clock conn config now).pieces = [] :=
  ⟨run?_isSome_iff, fun _ h => run?_lives h, fun _ _ _ _ h => dial_before h, accept_pieces⟩

/-! ### A session that drains -/

theorem cancelled_drains : ∃ r, quiet.run? stalledLeg cancelledTerms = some r ∧
    r.states.map Prod.snd = [.starting, .streaming, .draining, .closed] ∧ r.attempt = some (Span.ofMillis 90) ∧
    (∃ ms : List Message, Transfer.bytesOf r.halves.outbound.pieces = ms.flatMap Message.encode) ∧
    ∃ summary, r.result = .ok summary ∧ Drained summary.disposition := by
  obtain ⟨r, hrun, hstates, hattempt⟩ : ∃ r, quiet.run? stalledLeg cancelledTerms = some r ∧
      r.states.map Prod.snd = [.starting, .streaming, .draining, .closed] ∧ r.attempt = some (Span.ofMillis 90) := by
    with_unfolding_all exact ⟨_, rfl, rfl, rfl⟩
  have hlives := (lifecycle quiet stalledLeg cancelledTerms).2.1 r hrun
  obtain ⟨hdraining, hwhole⟩ := hlives.attempts.mp (hattempt ▸ nofun)
  exact ⟨r, hrun, hstates, hattempt, hwhole, hlives.drained.mpr hdraining⟩

end Session
end CallRelay
