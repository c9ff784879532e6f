import CallRelay.Bridge
import CallRelay.Proofs.Outbound.Standing
import CallRelay.Proofs.Session.Completion

/-! # A leg that goes down

Whether the leg of a host channel is up is asked before each read, and not while one is open. From the instant `d` on at
which the leg is down for good, a request that has nothing to hand out is told the end at once. A request that waits in
a read then goes on waiting for its frame, and with it the session. -/

namespace CallRelay

/-- From `d` on the leg is down, however often it is read. -/
def HostLeg.DownFrom (leg : HostLeg) (d : Nat) : Prop := ∀ reads now, d ≤ now → leg.up reads now = false

namespace HostRead

/-- What a search comes to with this read, if the leg is down behind it. -/
def found? : HostRead → Option (Except Fault Bytes)
  | voice [] | other => none
  | voice b => some (.ok b)
  | fault f => some (.error f)

/-- How a request for `room` bytes is answered whose read ends with this when the leg is down. -/
def late (room : Nat) : HostRead → Supply
  | voice [] | other => .done
  | voice b => .chunk (b.take room)
  | fault f => .failed f

theorem Silent.found? {r : HostRead} (h : r.Silent) : r.found? = none := by
  rcases h with rfl | rfl <;> rfl

theorem found?_voice {b : Bytes} (hb : b ≠ []) : (voice b).found? = some (.ok b) := by
  cases b with
  | nil => exact absurd rfl hb
  | cons => rfl

end HostRead

namespace HostVoice

/-! ### One request -/

/-- What becomes of a request for `room` bytes that is made at `now`, before `d`, with nothing pending, if the leg is down
    from `d` on. -/
inductive Awaits (v : HostVoice) (d room now : Nat) : Option (Supplied HostVoice) → Prop
  /-- It is answered before `d`. The end is told for a leg that was found down. -/
  | before {a : Supplied HostVoice} (hlt : now + a.delay < d)
      (hdown : a.supply = .done → a.source.leg.isUp (now + a.delay) = false) : Awaits v d room now (some a)
  /-- A read is open at `d`, and the request waits for the frame that ends it. -/
  | behind {a : Supplied HostVoice} {silent rest : List (Nat × HostRead)} {t : Nat} {r : HostRead}
      (hframes : v.leg.frames = silent ++ (t, r) :: rest) (hsilent : ∀ x ∈ silent, x.2.Silent ∧ x.1 < d) (ht : d ≤ t)
      (htime : now + a.delay = t) (hsupply : a.supply = r.late room) (hrest : a.source.leg.frames = rest) :
      Awaits v d room now (some a)
  /-- A read is open at `d`, and no frame ever ends it. -/
  | never (hsilent : ∀ x ∈ v.leg.frames, x.2.Silent ∧ x.1 < d) : Awaits v d room now none

/-- What a search comes to that begins before `d`, if the leg is down from `d` on. -/
inductive Seeks (frames : List (Nat × HostRead)) (d : Nat) : Option Outcome → Prop
  | before {o : Outcome} (hlt : o.time < d) : Seeks frames d (some o)
  | behind {silent rest : List (Nat × HostRead)} {t reads : Nat} {r : HostRead}
      (hframes : frames = silent ++ (t, r) :: rest)
      (hsilent : ∀ x ∈ silent, x.2.Silent ∧ x.1 < d) (ht : d ≤ t) : Seeks frames d (some ⟨t, r.found?, rest, reads⟩)
  | never (hsilent : ∀ x ∈ frames, x.2.Silent ∧ x.1 < d) : Seeks frames d none

section Request
variable {v : HostVoice} {up : Nat → Nat → Bool} {d room now reads t : Nat} {frames rest : List (Nat × HostRead)}
  {r : HostRead}

theorem Seeks.skip {x : Option Outcome} (h : Seeks rest d x) (hr : r.Silent) (ht : t < d) : Seeks ((t, r) :: rest) d x := by
  cases h with
  | before hlt => exact .before hlt
  | @behind silent rest t' reads r' hframes hsilent ht' =>
    exact .behind (congrArg ((t, r) :: ·) hframes) (List.forall_mem_cons.mpr ⟨⟨hr, ht⟩, hsilent⟩) ht'
  | never hsilent => exact .never (List.forall_mem_cons.mpr ⟨⟨hr, ht⟩, hsilent⟩)

/-- The frame for which a read waits comes before `d`, or else the leg is down behind it. -/
theorem Seeks.first {n : Nat} (hlt : now < d) : Seeks ((t, r) :: rest) d (some ⟨max now t, r.found?, rest, n⟩) := by
  by_cases ht : t < d
  · exact .before (Nat.max_lt.mpr ⟨hlt, ht⟩)
  · have hle := Nat.le_of_not_lt ht
    have hframes : (t, r) :: rest = [] ++ (t, r) :: rest := rfl
    rw [Nat.max_eq_right (Nat.le_trans (Nat.le_of_lt hlt) hle)]
    exact .behind hframes (List.forall_mem_nil _) hle

theorem seek_down (hup : up reads now = false) (frames : List (Nat × HostRead)) :
    seek up now reads frames = some ⟨now, none, frames, reads⟩ := by
  rw [seek.eq_def]
  cases frames <;> simp [hup]

/-- A search that passes a frame over goes on if it comes before `d`, and finds the leg down behind it if it comes later. -/
theorem Seeks.passed (hdown : ∀ reads now, d ≤ now → up reads now = false) (hlt : now < d) (hr : r.Silent)
    (hlater : max now t < d → Seeks rest d (seek up (max now t) reads rest)) :
    Seeks ((t, r) :: rest) d (seek up (max now t) reads rest) := by
  by_cases ht : t < d
  · exact (hlater (Nat.max_lt.mpr ⟨hlt, ht⟩)).skip hr ht
  · have hle := Nat.le_trans (Nat.le_of_not_lt ht) (Nat.le_max_right now t)
    rw [seek_down (hdown _ _ hle), ← hr.found?]
    exact .first hlt

theorem seek_seeks (hdown : ∀ reads now, d ≤ now → up reads now = false) (hlt : now < d) :
    Seeks frames d (seek up now reads frames) := by
  fun_induction seek up now reads frames with
  | case1 => exact .never (List.forall_mem_nil _)
  | case2 | case7 => exact .before hlt
  | case3 now reads t rest hup ih => exact .passed hdown hlt (Or.inr rfl) ih
  | case4 now reads t rest hup ih => exact .passed hdown hlt (Or.inl rfl) ih
  | case5 now reads t rest hup b hb =>
    rw [← HostRead.found?_voice hb]
    exact .first hlt
  | case6 => exact .first hlt

/-- A request with nothing pending is told the end at once by a leg that is down, and reads nothing. -/
theorem next_down (hup : v.leg.isUp now = false) (hp : v.pending = []) (room : Nat) :
    v.next room now = some { delay := 0, supply := .done, source := v, lines := [downLine] } := by
  obtain ⟨leg, pending⟩ := v
  obtain rfl : pending = [] := hp
  rw [next, if_neg (not_not_intro rfl), seek_down hup, Option.map_some, Nat.sub_self]

theorem next_awaits (h : v.leg.DownFrom d) (hp : v.pending = []) (hlt : now < d) (room : Nat) :
    Awaits v d room now (v.next room now) := by
  have hseeks : Seeks v.leg.frames d (seek v.leg.up now v.leg.reads v.leg.frames) := seek_seeks h hlt
  cases hnext : v.next room now with
  | none =>
    rw [next, if_neg (not_not_intro hp)] at hnext
    rw [Option.map_eq_none_iff.mp hnext] at hseeks
    cases hseeks with
    | never hsilent => exact .never hsilent
  | some a =>
    obtain ⟨taken, hlooks⟩ := next_looks hnext
    rw [next, if_neg (not_not_intro hp)] at hnext
    obtain ⟨o, hseek, rfl⟩ := Option.map_eq_some_iff.mp hnext
    obtain ⟨silent, found, hsearches⟩ := seek_searches hseek
    have htime : now + (o.time - now) = o.time := Nat.add_sub_cancel' hsearches.time
    rw [hseek] at hseeks
    cases hseeks with
    | before ho =>
      refine .before ?_ hlooks.down
      split <;> exact Nat.lt_of_le_of_lt (Nat.le_of_eq htime) ho
    | @behind silent rest t reads r hframes hsilent ht =>
      rcases r with b | - | f
      · cases b <;> exact .behind hframes hsilent ht htime rfl rfl
      · exact .behind hframes hsilent ht htime rfl rfl
      · exact .behind hframes hsilent ht htime rfl rfl

end Request

/-! ### One request after another -/

section Answers
variable {v w : HostVoice} {d room : Nat} {l : List (Nat × Nat × Bytes)}

theorem up_of_answers (h : source.Answers room v l w) : w.leg.up = v.leg.up := by
  induction h with
  | nil => rfl
  | cons ha hs later ih =>
    obtain ⟨taken, hlooks⟩ := next_looks ha
    exact ih.trans hlooks.same

theorem down_of_answers (h : source.Answers room v l w) (hdown : v.leg.DownFrom d) : w.leg.DownFrom d :=
  fun reads t ht => up_of_answers h ▸ hdown reads t ht

/-- From `d` on only the rest of the last frame is handed out, at once each time. -/
theorem answers_down (h : source.Answers room v l w) (hdown : v.leg.DownFrom d) (hl : ∀ x ∈ l, d ≤ x.1) :
    (∀ x ∈ l, x.2.1 = x.1) ∧ v.pending = (l.map fun x => x.2.2).flatten ++ w.pending := by
  induction h with
  | nil => exact ⟨List.forall_mem_nil _, rfl⟩
  | @cons v w t a b l ha hs later ih =>
    obtain ⟨ht, hlater⟩ := List.forall_mem_cons.mp hl
    by_cases hp : v.pending = []
    · have hdone : source.next v room t = _ := next_down (hdown _ t ht) hp room
      cases hdone.symm.trans ha
      cases hs
    · have hrest : source.next v room t = _ := next_rest hp room t
      cases hrest.symm.trans ha
      cases hs
      obtain ⟨htimes, hpending⟩ := ih hdown hlater
      refine ⟨List.forall_mem_cons.mpr ⟨rfl, htimes⟩, ?_⟩
      have hdrop : v.pending.drop room = (l.map fun x => x.2.2).flatten ++ w.pending := hpending
      rw [List.map_cons, List.flatten_cons, List.append_assoc, ← hdrop]
      exact (List.take_append_drop room v.pending).symm

end Answers
end HostVoice

namespace Outbound

/-- What a half does, to be started at `start` and cut at `limit`, whose source is a leg that is down from `d` on. -/
structure OnDownLeg (v : HostVoice) (d room limit start : Nat) (o : Outbound) : Prop where
  /-- Requests made from `d` on are answered at once, out of the frame that those made before left a rest of. -/
  rest : ∃ before after w rest, o.answers = before ++ after ∧ HostVoice.source.Answers room v before w ∧
    (∀ x ∈ before, x.1 < d) ∧
    (∀ x ∈ after, d ≤ x.1 ∧ x.2.1 = x.1) ∧ w.pending = (after.map fun x => x.2.2).flatten ++ rest ∧
    (o.ending = .exhausted → rest = [])
  /-- The first of them that finds nothing left ends the half at that very instant. -/
  asking : ∀ t, o.phase = .asking t → d ≤ t → o.ending = .exhausted ∧ o.time = t
  down : o.ending = .exhausted → ∃ reads, v.leg.up reads o.time = false
  /-- A half that is cut had not begun, or a read had been begun before `d`, or a chunk was left to be sent. -/
  cut : o.ending = .cut → limit ≤ start ∨ (∃ t < d, o.phase = .asking t) ∨ o.phase.held ≠ []

section
variable {v w : HostVoice} {d room limit start : Nat} {o : Outbound}

theorem Stands.down (h : Stands HostVoice.source room limit start w o) (hend : o.ending = .exhausted) :
    w.pending = [] ∧ ∃ reads, w.leg.up reads o.time = false := by
  cases h with
  | idle hlimit hphase hending => cases hending.symm.trans hend
  | unanswered hphase hending => cases hending.symm.trans hend
  | failed hphase hending => cases hending.symm.trans hend
  | held hphase hending => exact absurd hend hending
  | @exhausted t a hphase hending ha hs htime =>
    obtain ⟨taken, hlooks⟩ := HostVoice.next_looks ha
    have hfound := hlooks.down hs
    rw [HostLeg.isUp, hlooks.same, ← htime] at hfound
    refine ⟨?_, _, hfound⟩
    rcases hlooks.splits with ⟨hp, -⟩ | ⟨b, -, -, hchunk, -⟩
    · exact hp
    · cases hchunk.symm.trans hs

theorem Stands.asking {t : Nat} (h : Stands HostVoice.source room limit start w o) (hdown : w.leg.DownFrom d)
    (hphase : o.phase = .asking t) (ht : d ≤ t) : o.ending = .exhausted ∧ o.time = t := by
  -- Whatever is pending, the source answers at once.
  have hnext : ∃ a, HostVoice.source.next w room t = some a ∧ a.delay = 0 ∧ ∀ f, a.supply ≠ .failed f := by
    by_cases hp : w.pending = []
    · exact ⟨_, HostVoice.next_down (hdown _ t ht) hp room, rfl, nofun⟩
    · exact ⟨_, HostVoice.next_rest hp room t, rfl, nofun⟩
  obtain ⟨a, ha, hdelay, hsound⟩ := hnext
  cases h with
  | idle hlimit hidle => cases hidle.symm.trans hphase
  | unanswered hphase' hending hlt hlate =>
    cases hphase'.symm.trans hphase
    have hle := hlate a ha
    omega
  | failed hphase' hending ha' hs =>
    cases hphase'.symm.trans hphase
    cases ha.symm.trans ha'
    exact absurd hs (hsound _)
  | exhausted hphase' hending ha' hs htime =>
    cases hphase'.symm.trans hphase
    cases ha.symm.trans ha'
    exact ⟨hending, by rw [htime, hdelay, Nat.add_zero]⟩
  | held hheld =>
    rw [hphase] at hheld
    exact absurd rfl hheld

end

theorem run_onDownLeg {v : HostVoice} {d : Nat} (hdown : v.leg.DownFrom d) (out : Outflow) (p : Pacing) (limit : Nat)
    (mark : Mark)
    (now due : Nat) : OnDownLeg v d p.frameSize limit now (run HostVoice.source out p limit v mark now due) := by
  obtain ⟨w', hanswers, hstands⟩ := run_stands HostVoice.source out p limit v mark now due
  have htimely := run_answers_timely HostVoice.source out p limit v mark now due
  generalize run HostVoice.source out p limit v mark now due = o at hanswers hstands htimely ⊢
  have hup := HostVoice.up_of_answers hanswers
  have hdown' := HostVoice.down_of_answers hanswers hdown
  obtain ⟨before, after, hsplit, hbefore, hafter⟩ := htimely.split d
  rw [hsplit] at hanswers
  obtain ⟨w, hfront, hback⟩ := hanswers.split
  obtain ⟨htimes, hpending⟩ := HostVoice.answers_down hback (HostVoice.down_of_answers hfront hdown) hafter
  have hasking : ∀ t, o.phase = .asking t → d ≤ t → o.ending = .exhausted ∧ o.time = t := fun t => hstands.asking hdown'
  refine ⟨?_, hasking, fun hend => hup ▸ (hstands.down hend).2, ?_⟩
  · exact ⟨before, after, w, w'.pending, hsplit, hfront, hbefore, fun x hx => ⟨hafter x hx, htimes x hx⟩, hpending,
      fun hend => (hstands.down hend).1⟩
  · intro hcut
    cases hstands with
    | idle hlimit => exact Or.inl hlimit
    | held hheld => exact Or.inr (Or.inr hheld)
    | @unanswered t hphase hending hlt hlate =>
      refine Or.inr (Or.inl ⟨t, Nat.lt_of_not_le fun hle => ?_, hphase⟩)
      cases hcut.symm.trans (hasking t hphase hle).1
    | failed hphase hending => cases hcut.symm.trans hending
    | exhausted hphase hending => cases hcut.symm.trans hending

end Outbound
namespace Session

/-! ### A whole session -/

section Run
variable {κ η : Type} {s : Session} {leg : Leg HostVoice κ η} {terms : Terms} {d : Nat} {r : Report}

/-- How a session on a host leg ends that is down from `d` on. -/
structure OnDownLeg (s : Session) (leg : Leg HostVoice κ η) (terms : Terms) (d : Nat) (r : Report) : Prop where
  outbound : r.halves.outbound.OnDownLeg leg.voice d s.config.frameSize (s.cut leg terms) s.opened
  /-- It is completed by the first request made from `d` on that finds nothing left, which is made the instant the last
      audio has gone out. -/
  completed : ∀ t, r.halves.outbound.phase = .asking t → d ≤ t → Completes r ∧ r.halves.ending.time = t ∧
    t = (r.halves.outbound.turns.map Turn.ended).getLastD s.opened
  down : Completes r → ∃ reads, leg.voice.leg.up reads r.halves.ending.time = false
  /-- Otherwise it fails, or something else ends it: before its start, or while a read is open that was begun before `d`, or
      while there is a chunk to be sent. -/
  otherwise : ¬Completes r → (∃ e, r.result = .error e) ∨ s.cut leg terms ≤ s.opened ∨
    (∃ t < d, r.halves.outbound.phase = .asking t) ∨ r.halves.outbound.phase.held ≠ []

/-- The source was asked last when the last turn was over. -/
theorem run?_asking (h : s.run? leg terms = some r) {t : Nat} (hphase : r.halves.outbound.phase = .asking t) :
    t = (r.halves.outbound.turns.map Turn.ended).getLastD s.opened := by
  have hscheduled := run?_scheduled h
  have hlt : s.opened < s.cut leg terms := by
    refine Nat.lt_of_not_le fun hle => ?_
    cases (hscheduled.nothing hle).2.symm.trans hphase
  have hrequests := congrArg List.getLast? (hscheduled.requests hlt)
  rw [Outbound.requests, hphase, List.getLast?_cons] at hrequests
  have hlast : (r.halves.outbound.turns.map Turn.asked ++ [t]).getLast? = some t := List.getLast?_concat ..
  rw [List.getLastD_eq_getLast?]
  exact Option.some.inj (hlast.symm.trans hrequests)

theorem run?_onDownLeg (h : s.run? leg terms = some r) (hsource : leg.source = HostVoice.source)
    (hdown : leg.voice.leg.DownFrom d) : s.OnDownLeg leg terms d r := by
  have hout : r.halves.outbound.OnDownLeg leg.voice d s.config.frameSize (s.cut leg terms) s.opened := by
    rw [run?_outboundUntil h, outboundUntil, hsource]
    exact Outbound.run_onDownLeg hdown s.outflow (s.pacing terms.clock) _ _ _ _
  have hcompletes := run?_completes_iff h
  refine ⟨hout, fun t hphase ht => ?_, fun hc => ?_, fun hc => ?_⟩
  · obtain ⟨hend, htime⟩ := hout.asking t hphase ht
    refine ⟨hcompletes.mpr hend, ?_, run?_asking h hphase⟩
    rw [run?_completed_time h hend, htime]
  · have hend := hcompletes.mp hc
    rw [run?_completed_time h hend]
    exact hout.down hend
  · cases hend : r.halves.outbound.ending with
    | exhausted => exact absurd (hcompletes.mpr hend) hc
    | failed e => exact Or.inl ⟨e, (run?_failed_iff h).mpr (Or.inl hend)⟩
    | cut => exact Or.inr (hout.cut hend)

end Run

/-! ### Bridging -/

/-- The local side of a bridged call. -/
def bridged {η : Type} (leg : HostLeg) (speaker : HostSpeaker) (handler : Handler η) (watch : η) : Leg HostVoice Nat η :=
  ⟨HostVoice.source, { leg }, Sink.host speaker, 0, handler, watch⟩

section Bridge
variable {η : Type} {net : Network Connection} {leg : HostLeg} {speaker : HostSpeaker} {endpoint : String} {id : Identity}
  {config : Config} {handler : Handler η} {watch : η} {terms : Terms} {now : Nat} {r : Report}

theorem bridge_refused (h : leg.isUp now = false) :
    bridge net leg speaker endpoint id config handler watch terms now = .refused (.sourceFailure channelDown) := by
  rw [bridge, h]
  rfl

/-- A bridged call that has run is a session that was dialled, on the host leg. -/
theorem bridge_ran (h : bridge net leg speaker endpoint id config handler watch terms now = .ran r) : ∃ conn t s,
    (dial conn id config t).ending = .opened s ∧ s.run? (bridged leg speaker handler watch) terms = some r := by
  unfold bridge at h
  split at h
  · split at h
    · cases h
    · simp only at h
      split at h
      · cases h
      · next conn _ =>
        split at h
        · cases h
        · cases h
        · next s hopened =>
          refine ⟨conn, _, s, hopened, ?_⟩
          unfold bridged
          generalize s.run? _ terms = x at h ⊢
          cases x with
          | none => cases h
          | some r' =>
            cases h
            rfl
  · cases h

end Bridge

/-- From the instant on at which its leg is down for good, a host channel tells the end to every request that finds
    nothing left, and reads nothing more. Only a request that waits in a read then goes on waiting. A session over the
    leg is completed once all that was left is sent, unless such a request is waiting or something else ends the session
    before. -/
theorem down_leg_noticed {v : HostVoice} {d : Nat} (h : v.leg.DownFrom d) :
    (v.pending = [] → ∀ room now,
      (d ≤ now → v.next room now = some { delay := 0, supply := .done, source := v, lines := [HostVoice.downLine] }) ∧
      (now < d → v.Awaits d room now (v.next room now))) ∧
    ∀ {η : Type} (net : Network Connection) (speaker : HostSpeaker) (endpoint : String) (id : Identity) (config : Config)
      (handler : Handler η) (watch : η) (terms : Terms) (now : Nat),
      (d ≤ now →
        bridge net v.leg speaker endpoint id config handler watch terms now = .refused (.sourceFailure channelDown)) ∧
      ∀ r, bridge net v.leg speaker endpoint id config handler watch terms now = .ran r → ∃ conn t s,
        (dial conn id config t).ending = .opened s ∧ s.run? (bridged v.leg speaker handler watch) terms = some r ∧
          s.OnDownLeg (bridged v.leg speaker handler watch) terms d r := by
  refine ⟨fun hp room now => ⟨fun hle => ?_, fun hlt => HostVoice.next_awaits h hp hlt room⟩, ?_⟩
  · exact HostVoice.next_down (h _ now hle) hp room
  · intro η net speaker endpoint id config handler watch terms now
    refine ⟨fun hle => bridge_refused (h _ now hle), fun r hr => ?_⟩
    obtain ⟨conn, t, s, hopened, hrun⟩ := bridge_ran hr
    exact ⟨conn, t, s, hopened, hrun, run?_onDownLeg hrun rfl h⟩

/-! ### A leg that goes down after 50 milliseconds -/

/-- Every attempt connects at once, to a peer that says nothing. -/
def quickNet : Network Connection where
  lookup _ _ := .error Network.nameless
  attempt _ _ := some (0, .ok ⟨[], quickLine⟩)
  listen _ := .ok ()

def fallingLeg (frames : List (Nat × HostRead)) : HostLeg := ⟨frames, 0, fun _ now => now < Span.ofMillis 50⟩

def fallingCall (frames : List (Nat × HostRead)) : Bridged :=
  bridge quickNet (fallingLeg frames) {} "192.0.2.1:9092" (.repeated 7) { frameSize := 2 } Handler.ignore () stalledTerms 0

theorem fallingLeg_down (frames : List (Nat × HostRead)) : (fallingLeg frames).DownFrom (Span.ofMillis 50) :=
  fun _ _ hle => decide_eq_false (Nat.not_lt_of_le hle)

/-- The last of three samples is left when the leg goes down, and goes out after 60 milliseconds. -/
theorem last_sample_sent : ∃ r, fallingCall [(0, .voice [1, 2, 3, 4, 5, 6])] = .ran r ∧
    r.halves.outbound.sent = [[1, 2], [3, 4], [5, 6]] ∧ Completes r ∧ r.halves.ending.time = Span.ofMillis 60 := by
  obtain ⟨r, hran, hsent, hphase⟩ : ∃ r, fallingCall [(0, .voice [1, 2, 3, 4, 5, 6])] = .ran r ∧
      r.halves.outbound.sent = [[1, 2], [3, 4], [5, 6]] ∧ r.halves.outbound.phase = .asking (Span.ofMillis 60) := by
    with_unfolding_all exact ⟨_, rfl, rfl, rfl⟩
  obtain ⟨-, hbridged⟩ := down_leg_noticed (v := { leg := fallingLeg [(0, .voice [1, 2, 3, 4, 5, 6])] }) (fallingLeg_down _)
  obtain ⟨-, hends⟩ := hbridged quickNet {} "192.0.2.1:9092" (.repeated 7) { frameSize := 2 } Handler.ignore ()
    stalledTerms 0
  obtain ⟨-, -, s, -, -, hdown⟩ := hends r hran
  obtain ⟨hcompletes, htime, -⟩ := hdown.completed _ hphase (by decide)
  exact ⟨r, hran, hsent, hcompletes, htime⟩

/-- A request waits in its first read when the leg goes down. It is never answered, and the session runs on until its
    deadline. -/
theorem open_read_outlasts : (∀ reads now, (fallingLeg []).up reads now = true ↔ now < Span.ofMillis 50) ∧
    HostVoice.source.next { leg := fallingLeg [] } 2 0 = none ∧ ∃ r, fallingCall [] = .ran r ∧
      r.result.map Summary.disposition = .ok .deadlineElapsed ∧ r.halves.ending.time = Span.ofMillis 200 := by
  refine ⟨fun reads now => decide_eq_true_iff, rfl, ?_⟩
  with_unfolding_all exact ⟨_, rfl, rfl, rfl⟩

end Session
end CallRelay
