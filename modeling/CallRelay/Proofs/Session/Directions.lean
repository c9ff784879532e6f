import CallRelay.Proofs.Outbound.Cutting
import CallRelay.Proofs.Session.Counters
import CallRelay.Proofs.Session.Lifecycle

/-! # The two directions of a session

Each half of a session acts as it would alone until the other one ends the session. What arrives, and whoever takes it,
hence leaves no trace in what is sent before that, and the source and the write side leave none in what is handed over.
-/

namespace CallRelay

theorem Effort.hangup_tag (clock : Clock) (out : Outflow) (mark : Mark) (now limit : Nat) (tag tag' : Label) :
    (hangup clock out mark now limit tag).pieces = (hangup clock out mark now limit tag').pieces := by
  unfold hangup
  simp only
  split
  · split <;> rfl
  · split <;> rfl
  · rfl

namespace Session

/-! ### The outbound half alone -/

section Alone
variable {σ κ η κ' η' : Type}

def outbound (s : Session) (leg : Leg σ κ η) (terms : Terms) : Outbound := s.outboundUntil leg terms.clock (s.stopsAt terms)

/-- The halves of a session that nothing inbound ends. -/
def unanswered (s : Session) (leg : Leg σ κ η) (terms : Terms) : Halves :=
  ⟨s.outbound leg terms, [], ending terms.first (s.stopsAt terms) (s.stop terms).reason (s.outbound leg terms) none⟩

/-- What such a session sends. -/
def speech (s : Session) (leg : Leg σ κ η) (terms : Terms) : List Written :=
  (close s terms.clock (s.unanswered leg terms)).writes

theorem ending_none (first first' : Half) (stop : Nat) (reason : Disposition) (o : Outbound) :
    ending first stop reason o none = ending first' stop reason o none := by
  unfold ending
  cases o.ending <;> rfl

theorem Ends.of_outbound {first : Half} {stop : Nat} {reason : Disposition} {o : Outbound} {i : Option (Nat × InboundEnd)}
    {ended : Ending} (h : Ends first stop reason o i ended) (hout : ended.half = .outbound) :
    ended = ending first stop reason o none := by
  cases h with
  | exhausted ho => simp only [ending, ho]
  | failed e ho => simp only [ending, ho]
  | stopped ho hi => simp only [ending, ho]
  | inbound => cases hout

theorem ending_none_time {first : Half} {stop : Nat} {reason : Disposition} {o : Outbound}
    (h : o.ending = .cut ∧ o.time = stop ∨ o.ending ≠ .cut ∧ o.time < stop) :
    (ending first stop reason o none).time = o.time := by
  unfold ending
  rcases h with ⟨hcut, htime⟩ | ⟨hne, -⟩
  · rw [hcut]
    exact htime.symm
  · cases ho : o.ending with
    | cut => exact absurd ho hne
    | exhausted | failed => rfl

end Alone

/-! ### The outbound half in a run -/

section Run
variable {σ κ η : Type} {s : Session} {leg : Leg σ κ η} {terms : Terms} {r : Report} {u : Nat}

/-- An outbound half that ends the session has not noticed the inbound one. -/
theorem run?_unanswered (h : s.run? leg terms = some r) (hout : r.halves.ending.half = .outbound) :
    r.halves.outbound = s.outbound leg terms ∧ r.halves.ending = (s.unanswered leg terms).ending := by
  have hrun := run?_outboundUntil h
  have hends := run?_ends h
  have hself : r.halves.outbound.ending ≠ .cut → r.halves.outbound = s.outbound leg terms := by
    intro hne
    have hlt := Nat.lt_of_lt_of_le (run?_time_lt_cut h hne) cut_le_stopsAt
    rw [hrun] at hne hlt ⊢
    exact (Outbound.run_eq_of_time_lt hne hlt).symm
  have hsame : r.halves.outbound = s.outbound leg terms := by
    generalize r.halves.ending = ended at hout hends
    cases hends with
    | exhausted ho => exact hself (ho ▸ nofun)
    | failed e ho => exact hself (ho ▸ nofun)
    | stopped ho hi =>
      have hcut : s.cut leg terms = s.stopsAt terms := by
        unfold cut
        split
        · next t e hend => exact Nat.min_eq_left (Nat.le_of_lt (hi t e hend))
        · rfl
      rw [hrun, hcut]
      rfl
    | inbound => cases hout
  refine ⟨hsame, ?_⟩
  rw [unanswered, ← hsame]
  exact hends.of_outbound hout

/-- An inbound half that ends the session cuts the outbound one, which would not have ended by then. -/
theorem run?_answered (h : s.run? leg terms = some r) (hin : r.halves.ending.half = .inbound) :
    s.cut leg terms = cutFor terms.first r.halves.ending.time ∧ s.cut leg terms ≤ (s.outbound leg terms).time := by
  have hrun := run?_outboundUntil h
  have hends := run?_ends h
  generalize r.halves.ending = ended at hin hends ⊢
  cases hends with
  | exhausted => cases hin
  | failed => cases hin
  | stopped => cases hin
  | inbound t e ho hi hstop =>
    constructor
    · unfold cut
      rw [hi]
      exact Nat.min_eq_right hstop
    · refine Nat.le_of_not_lt fun hlt => ?_
      rcases (s.outboundUntil_scheduled leg terms.clock (s.stopsAt terms)).ends with ⟨-, htime⟩ | ⟨hne, -⟩
      · rw [outbound, htime] at hlt
        exact Nat.not_le_of_lt hlt cut_le_stopsAt
      · have heq : r.halves.outbound = s.outbound leg terms := hrun.trans (Outbound.run_eq_of_time_lt hne hlt)
        rw [heq] at ho
        exact hne ho

theorem filter_writtenIn (state : Option SessionState) (pieces : List (Nat × Bytes)) (u : Nat) :
    (writtenIn state pieces).filter (·.time < u) = writtenIn state (Transfer.before u pieces) := by
  rw [writtenIn, List.filter_map]
  rfl

theorem close_writes (s : Session) (clock : Clock) (h : Halves) : (close s clock h).writes =
    writtenIn (some .streaming) h.outbound.pieces ++ writtenIn (some .draining) (hangUp s clock h).pieces := rfl

theorem hangUp_before {clock : Clock} {h : Halves} (hu : u ≤ h.ending.time) :
    Transfer.before u (hangUp s clock h).pieces = [] :=
  (hangUp_lasts s clock h).timely.before_eq_nil hu

theorem hangUp_congr (s : Session) (clock : Clock) {h h' : Halves} (hout : h.outbound = h'.outbound)
    (hend : h.ending = h'.ending) :
    hangUp s clock h = hangUp s clock h' := by
  unfold hangUp Halves.drains
  rw [hout, hend]

/-- Until the inbound half ends the session, it sends what it would send if nothing arrived. -/
theorem run?_speech (h : s.run? leg terms = some r)
    (hu : r.halves.ending.half = .inbound → u ≤ cutFor terms.first r.halves.ending.time) :
    r.writes.filter (·.time < u) = (s.speech leg terms).filter (·.time < u) ∧
      r.halves.outbound.requests.filter (· < u) = (s.outbound leg terms).requests.filter (· < u) := by
  rw [run?_writes h, speech, close_writes]
  cases hhalf : r.halves.ending.half with
  | outbound =>
    obtain ⟨hout, hend⟩ := run?_unanswered h hhalf
    rw [hangUp_congr s terms.clock hout hend, hout]
    exact ⟨rfl, rfl⟩
  | inbound =>
    obtain ⟨hcut, htime⟩ := run?_answered h hhalf
    have hlimit : u ≤ s.cut leg terms := hcut ▸ hu hhalf
    have hends := (s.outboundUntil_scheduled leg terms.clock (s.stopsAt terms)).ends
    obtain ⟨hpieces, hrequests⟩ : Transfer.before u (s.outboundUntil leg terms.clock (s.cut leg terms)).pieces =
        Transfer.before u (s.outbound leg terms).pieces ∧
        (s.outboundUntil leg terms.clock (s.cut leg terms)).requests.filter (· < u) =
          (s.outbound leg terms).requests.filter (· < u) :=
      Outbound.run_before hlimit (Nat.le_trans hlimit cut_le_stopsAt)
    rw [← run?_outboundUntil h] at hpieces hrequests
    -- Neither session hangs up before `u`: the one fails to, and the other comes to its end later.
    have hnone : (hangUp s terms.clock r.halves).pieces = [] := by
      refine hangUp_of_not_drains s terms.clock ?_
      unfold Halves.drains
      rw [hhalf]
    have hlate : Transfer.before u (hangUp s terms.clock (s.unanswered leg terms)).pieces = [] := by
      refine hangUp_before (Nat.le_trans (Nat.le_trans hlimit htime) (Nat.le_of_eq ?_))
      exact (ending_none_time hends).symm
    simp only [List.filter_append, filter_writtenIn, hnone, hlate, hpieces]
    exact ⟨rfl, hrequests⟩

/-- Until the outbound half ends the session, the inbound one does what it does alone. -/
theorem run?_heard (h : s.run? leg terms = some r)
    (hu : r.halves.ending.half = .outbound → u ≤ seenFor terms.first r.halves.ending.time) :
    r.halves.inbound.filter (·.1 < u) = (s.inbound leg).acts.filter (·.1 < u) := by
  cases hhalf : r.halves.ending.half with
  | outbound =>
    rw [(run?_cut_short h hhalf).1]
    exact filter_filter_lt (hu hhalf) Prod.fst _
  | inbound => rw [(run?_inbound h hhalf).1]

end Run

/-! ### Two runs -/

section Runs
variable {σ σ' κ κ' η η' : Type}

/-- Two sessions are to send the same: under the same settings, from the same source, to the same write side and until the
    same deadline and cancellation. What arrives may differ, and who takes it, and which half is looked at first. -/
structure SameVoice (s : Session) (leg : Leg σ κ η) (terms : Terms) (s' : Session) (leg' : Leg σ κ' η') (terms' : Terms) :
    Prop where
  config : s'.config = s.config
  outflow : s'.outflow = s.outflow
  mark : s'.mark = s.mark
  opened : s'.opened = s.opened
  source : leg'.source = leg.source
  voice : leg'.voice = leg.voice
  clock : terms'.clock = terms.clock
  deadline : terms'.deadline = terms.deadline
  cancel : terms'.cancel = terms.cancel

/-- The same arrives at two sessions, for the same sink and the same handler. All else may differ. -/
structure SameEar (s : Session) (leg : Leg σ κ η) (s' : Session) (leg' : Leg σ' κ η) : Prop where
  reader : s'.reader = s.reader
  opened : s'.opened = s.opened
  sink : leg'.sink = leg.sink
  ear : leg'.ear = leg.ear
  handler : leg'.handler = leg.handler
  watch : leg'.watch = leg.watch

/-- Before `u` two runs have sent the same at the same instants, and asked their sources at the same instants. -/
structure SpokenAlike (u : Nat) (r r' : Report) : Prop where
  writes : r.writes.filter (·.time < u) = r'.writes.filter (·.time < u)
  requests : r.halves.outbound.requests.filter (· < u) = r'.halves.outbound.requests.filter (· < u)

section Voice
variable {s s' : Session} {leg : Leg σ κ η} {leg' : Leg σ κ' η'} {terms terms' : Terms}

theorem SameVoice.outboundUntil (h : SameVoice s leg terms s' leg' terms') (clock : Clock) (limit : Nat) :
    s'.outboundUntil leg' clock limit = s.outboundUntil leg clock limit := by
  simp only [Session.outboundUntil, pacing, h.source, h.outflow, h.config, h.voice, h.mark, h.opened]

theorem SameVoice.stop (h : SameVoice s leg terms s' leg' terms') : s'.stop terms' = s.stop terms := by
  simp only [Session.stop, span, h.clock, h.opened, h.deadline, h.cancel]

theorem SameVoice.outbound (h : SameVoice s leg terms s' leg' terms') : s'.outbound leg' terms' = s.outbound leg terms := by
  rw [Session.outbound, stopsAt, h.outboundUntil, h.stop, h.clock, h.opened]
  rfl

theorem SameVoice.speech (h : SameVoice s leg terms s' leg' terms') : s'.speech leg' terms' = s.speech leg terms := by
  have hend : (s'.unanswered leg' terms').ending = (s.unanswered leg terms).ending := by
    rw [unanswered, stopsAt, h.outbound, h.stop, h.opened]
    exact ending_none _ _ _ _ _
  have hhangup : (hangUp s' terms'.clock (s'.unanswered leg' terms')).pieces =
      (hangUp s terms.clock (s.unanswered leg terms)).pieces := by
    have hcongr : hangUp s' terms'.clock (s'.unanswered leg' terms') = hangUp s' terms'.clock (s.unanswered leg terms) :=
      hangUp_congr s' terms'.clock h.outbound hend
    rw [hcongr]
    simp only [hangUp, h.clock, h.outflow, h.mark, h.config]
    split
    · split
      · exact Effort.hangup_tag _ _ _ _ _ _ _
      · rfl
    · rfl
  have hpieces : (s'.unanswered leg' terms').outbound.pieces = (s.unanswered leg terms).outbound.pieces :=
    congrArg Outbound.pieces h.outbound
  simp only [Session.speech, close_writes, hhangup, hpieces]

end Voice

/-- What arrives has no part in how a session is dialled. -/
theorem dial_inflow {conn : Connection} {id : Identity} {config : Config} {now : Nat} {s : Session} (inflow : Inflow)
    (h : (dial conn id config now).ending = .opened s) : dial { conn with inflow } id config now =
      { dial conn id config now with ending := .opened { s with reader := .ofInflow inflow } } := by
  unfold dial at h ⊢
  split at h
  · cases h
  · simp only at h ⊢
    split at h
    · cases h
      rfl
    · cases h
    · cases h

/-- The write side has no part in how a session is accepted. -/
theorem accept_outflow {clock : Clock} {conn : Connection} {config : Config} {now : Nat} {s : Session} (outflow : Outflow)
    (h : (accept clock conn config now).ending = .opened s) : accept clock { conn with outflow } config now =
      { accept clock conn config now with ending := .opened { s with outflow } } := by
  unfold accept at h ⊢
  split at h
  · cases h
  · simp only at h ⊢
    split at h
    · cases h
      rfl
    · cases h

/-- Nothing that happens in one direction of a session shows in the other one before it ends the session: not in what is
    sent and when the source is asked, and not in what the sink is handed and the handler is told. -/
theorem directions_apart {s : Session} {leg : Leg σ κ η} {terms : Terms} {r : Report} (h : s.run? leg terms = some r) :
    (∀ {κ' η' : Type} {s' : Session} {leg' : Leg σ κ' η'} {terms' : Terms}, SameVoice s leg terms s' leg' terms' →
      ∃ r', s'.run? leg' terms' = some r' ∧ ∀ u,
        (r.halves.ending.half = .inbound → u ≤ cutFor terms.first r.halves.ending.time) →
        (r'.halves.ending.half = .inbound → u ≤ cutFor terms'.first r'.halves.ending.time) → SpokenAlike u r r') ∧
    (∀ {σ' : Type} {s' : Session} {leg' : Leg σ' κ η} {terms' : Terms} {r' : Report}, SameEar s leg s' leg' →
      s'.run? leg' terms' = some r' → ∀ u,
        (r.halves.ending.half = .outbound → u ≤ seenFor terms.first r.halves.ending.time) →
        (r'.halves.ending.half = .outbound → u ≤ seenFor terms'.first r'.halves.ending.time) →
          r.halves.inbound.filter (·.1 < u) = r'.halves.inbound.filter (·.1 < u)) ∧
    (∀ conn id config now inflow, (dial conn id config now).ending = .opened s → dial { conn with inflow } id config now =
      { dial conn id config now with ending := .opened { s with reader := .ofInflow inflow } }) ∧
    ∀ clock conn config now outflow, (accept clock conn config now).ending = .opened s →
      accept clock { conn with outflow } config now =
        { accept clock conn config now with ending := .opened { s with outflow } } := by
  refine ⟨fun {κ' η' s' leg' terms'} hsame => ?_, fun {σ' s' leg' terms' r'} hsame h' u hu hu' => ?_,
    fun _ _ _ _ inflow ho => dial_inflow inflow ho, fun _ _ _ _ outflow ho => accept_outflow outflow ho⟩
  · have hsome : (s'.run? leg' terms').isSome := by
      have hrun : (s.run? leg terms).isSome := Option.isSome_iff_exists.mpr ⟨r, h⟩
      rw [run?_isSome_iff] at hrun ⊢
      rwa [hsame.clock, hsame.opened, hsame.config]
    obtain ⟨r', h'⟩ := Option.isSome_iff_exists.mp hsome
    refine ⟨r', h', fun u hu hu' => ?_⟩
    obtain ⟨hwrites, hrequests⟩ := run?_speech h hu
    obtain ⟨hwrites', hrequests'⟩ := run?_speech h' hu'
    rw [hsame.speech] at hwrites'
    rw [hsame.outbound] at hrequests'
    exact ⟨hwrites.trans hwrites'.symm, hrequests.trans hrequests'.symm⟩
  · have halone : s'.inbound leg' = s.inbound leg := by
      simp only [inbound, hsame.reader, hsame.opened, hsame.sink, hsame.ear, hsame.handler, hsame.watch]
    rw [run?_heard h hu, run?_heard h' hu', halone]

end Runs

/-! ### A peer that speaks and hangs up -/

def talkative : Session :=
  { quiet with
    reader := .ofInflow [⟨Span.ofMillis 10, .bytes [0x10, 0x00, 0x02, 1, 2]⟩, ⟨Span.ofMillis 75, .bytes encodeHangup⟩] }

/-- The source stalls, and what the peer sends is kept. -/
def heardLeg : Leg Script Bytes Unit := ⟨Script.source, stalledLeg.voice, Sink.buffer, [], Handler.ignore, ()⟩

/-- The same for a source with one sample. -/
def briefLeg : Leg Clip Bytes Unit := ⟨Clip.source, ⟨[1, 2], 0⟩, Sink.buffer, [], Handler.ignore, ()⟩

/-- The hangup ends one run, which has sent until then what is sent to a peer that says nothing; and the end of the source
    ends another one, which has handed over by then what was handed over while the source stalled. -/
theorem talkative_apart : ∃ r silent brief, talkative.run? heardLeg stalledTerms = some r ∧
    quiet.run? stalledLeg stalledTerms = some silent ∧ talkative.run? briefLeg stalledTerms = some brief ∧
    r.halves.ending.half = .inbound ∧ r.writes.map Written.time = [20, 70].map Span.ofMillis ∧
    SpokenAlike (Span.ofMillis 75) r silent ∧
    brief.halves.ending.half = .outbound ∧ Inbound.playedOf brief.halves.inbound = [[1, 2]] ∧
    r.halves.inbound.filter (·.1 < Span.ofMillis 20) = brief.halves.inbound.filter (·.1 < Span.ofMillis 20) := by
  obtain ⟨r, silent, brief, hrun, hsilent, hbrief, hhalf, htime, htimes, hhalf', hbriefHalf, hbriefTime, hplayed⟩ :
      ∃ r silent brief, talkative.run? heardLeg stalledTerms = some r ∧ quiet.run? stalledLeg stalledTerms = some silent ∧
        talkative.run? briefLeg stalledTerms = some brief ∧ r.halves.ending.half = .inbound ∧
        r.halves.ending.time = Span.ofMillis 75 ∧ r.writes.map Written.time = [20, 70].map Span.ofMillis ∧
        silent.halves.ending.half = .outbound ∧ brief.halves.ending.half = .outbound ∧
        brief.halves.ending.time = Span.ofMillis 20 ∧ Inbound.playedOf brief.halves.inbound = [[1, 2]] := by
    with_unfolding_all exact ⟨_, _, _, rfl, rfl, rfl, rfl, rfl, rfl, rfl, rfl, rfl, rfl⟩
  obtain ⟨hvoice, hear, -, -⟩ := directions_apart hrun
  have hsameVoice : SameVoice talkative heardLeg stalledTerms quiet stalledLeg stalledTerms :=
    ⟨rfl, rfl, rfl, rfl, rfl, rfl, rfl, rfl, rfl⟩
  have hsameEar : SameEar talkative heardLeg talkative briefLeg := ⟨rfl, rfl, rfl, rfl, rfl, rfl⟩
  obtain ⟨silent', hsilent', hspoken⟩ := hvoice hsameVoice
  obtain rfl : silent' = silent := Option.some.inj (hsilent'.symm.trans hsilent)
  refine ⟨r, silent', brief, hrun, hsilent, hbrief, hhalf, htimes, ?_, hbriefHalf, hplayed, ?_⟩
  · refine hspoken _ (fun _ => ?_) fun hin => ?_
    · rw [htime]
      exact le_cutFor _ _
    · rw [hhalf'] at hin
      cases hin
  · refine hear hsameEar hbrief _ (fun hout => ?_) fun _ => ?_
    · rw [hhalf] at hout
      cases hout
    · rw [hbriefTime]
      exact le_seenFor _ _

end Session
end CallRelay
