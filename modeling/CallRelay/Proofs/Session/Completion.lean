import CallRelay.Proofs.Session.Directions
import CallRelay.Proofs.Sources

/-! # Completing a session

A session is completed if its outbound half comes to the end of its source before anything else ends it. All audio of the
source has gone out then, whole and in order, in messages that are not empty and no longer than the settings say. -/

namespace CallRelay

/-! ### The outbound half -/

namespace Outbound
variable {σ : Type} {src : Source σ} {out : Outflow} {p : Pacing} {limit : Nat} {s s' : σ} {mark mark' : Mark}
  {now due time : Nat}
  {turn : Turn} {lines : List (Nat × Line)}

theorem flatten_sent (o : Outbound) : o.sent.flatten = (o.turns.map Turn.chunk).flatten := List.flatten_filter_ne_nil

theorem answered_le_of_take (h : Turn.take src out p limit s mark now due = .finished turn time s' mark' lines) :
    turn.answered ≤ time := by
  have hturn := Turn.take_comesTo src out p limit s mark now due
  rw [h] at hturn
  cases hturn with
  | @chunk a b x ha hs hx =>
    have hbegan : now + a.delay ≤ max (now + a.delay) (p.clock.wake due) := Nat.le_max_left _ _
    cases hx with
    | empty hlim hc => exact hbegan
    | @sent w x t hlim hc hw hx he ht =>
      have hd := send_delivers out mark w (max (now + a.delay) (p.clock.wake due))
      rw [hx] at hd
      exact Nat.le_trans hbegan (hd.le_ending (Or.inl he)).1

/-- What every request keeps is true of all audio sent, once the source has no more. -/
theorem run_keeps {Q : Nat → Bytes → σ → Prop} (hkeeps : src.Keeps Q) {handed : Bytes} (hq : Q now handed s)
    (hend : (run src out p limit s mark now due).ending = .exhausted) :
    ∃ s' t a, src.next s' p.frameSize t = some a ∧ a.supply = .done ∧
      (run src out p limit s mark now due).time = t + a.delay ∧
      Q (t + a.delay) (handed ++ (run src out p limit s mark now due).sent.flatten) a.source := by
  fun_induction run src out p limit s mark now due generalizing handed with
  | case1 s mark now due phase time ending lines hturn =>
    have hcomes := Turn.take_comesTo src out p limit s mark now due
    obtain rfl : ending = .exhausted := hend
    rw [hturn] at hcomes
    cases hcomes with
    | @exhausted a ha hs =>
      have hlast := hkeeps.answer hq ha.next fun e he => by cases hs.symm.trans he
      rw [hs] at hlast
      exact ⟨s, now, a, ha.next, hs, rfl, hlast⟩
    | chunk ha hs hx => cases hx
  | case2 s mark now due turn time s' mark' lines hturn ih =>
    have hle := answered_le_of_take hturn
    have hfinishes := take_finishes hturn
    obtain ⟨a, hnext, hs, rfl, hanswered⟩ := hfinishes.answered
    have hq' := hkeeps.answer hq hnext fun e he => by cases hs.symm.trans he
    rw [← hanswered, hs] at hq'
    obtain ⟨s', t, a', hnext', hdone, htime, hlast⟩ := ih (hkeeps.later hq' hle) hend
    refine ⟨s', t, a', hnext', hdone, htime, ?_⟩
    rw [flatten_sent, List.append_assoc] at hlast
    rw [flatten_sent]
    exact hlast

/-- Messages are as long as the source was asked for at most, and none is empty. -/
theorem run_sizes (hobeys : src.Obeys) :
    ∀ b ∈ (run src out p limit s mark now due).sent, 1 ≤ b.length ∧ b.length ≤ p.frameSize := by
  fun_induction run src out p limit s mark now due with
  | case1 => exact fun b hb => absurd hb List.not_mem_nil
  | case2 s mark now due turn time s' mark' lines hturn ih =>
    obtain ⟨a, hnext, hs, -⟩ := (take_finishes hturn).answered
    intro b hb
    obtain ⟨hmem, hne⟩ := List.mem_filter.mp hb
    rcases List.mem_cons.mp hmem with rfl | hmem
    · exact ⟨List.length_pos_iff.mpr (of_decide_eq_true hne), hobeys s p.frameSize now a _ hnext hs⟩
    · exact ih b (List.mem_filter.mpr ⟨hmem, hne⟩)

end Outbound

namespace Session

/-! ### The end of the source -/

section Run
variable {σ κ η : Type} {s : Session} {leg : Leg σ κ η} {terms : Terms} {r : Report}

/-- The run has ended as completed. -/
def Completes (r : Report) : Prop := ∃ summary, r.result = .ok summary ∧ summary.disposition = .completed

theorem completes_iff_map : Completes r ↔ r.result.map Summary.disposition = .ok .completed := by
  unfold Completes
  cases r.result with
  | error e => exact iff_of_false (fun ⟨_, hok, _⟩ => nomatch hok) nofun
  | ok summary => simp [Except.map]

theorem run?_completes_iff (h : s.run? leg terms = some r) : Completes r ↔ r.halves.outbound.ending = .exhausted := by
  rw [Completes, run?_ok_iff (P := (· = .completed)) h]
  have hends := run?_ends h
  generalize r.halves.ending = ended at hends ⊢
  cases hends with
  | exhausted ho => simp [ho]
  | failed e ho => simp [ho]
  | stopped ho hi =>
    rcases reason_cases (s.stop terms) with hr | hr <;> simp [ho, hr]
  | inbound t e ho hi hstop => cases e <;> simp [ho, inboundVerdict]

theorem run?_completed_time (h : s.run? leg terms = some r) (ho : r.halves.outbound.ending = .exhausted) :
    r.halves.ending = ⟨r.halves.outbound.time, .outbound, .ok .completed⟩ := by
  have hends := run?_ends h
  generalize r.halves.ending = ended at hends ⊢
  cases hends with
  | exhausted => rfl
  | failed e ho' => cases ho.symm.trans ho'
  | stopped ho' => cases ho.symm.trans ho'
  | inbound t e ho' => cases ho.symm.trans ho'

theorem lt_cut_iff {t : Nat} : t < s.cut leg terms ↔
    t < s.stopsAt terms ∧ ∀ u e, (s.inbound leg).ending = some (u, e) → t < cutFor terms.first u := by
  unfold cut stopsAt
  cases hi : (s.inbound leg).ending with
  | none => simp
  | some p =>
    obtain ⟨u, e⟩ := p
    refine Nat.lt_min.trans (and_congr_right fun _ => ⟨fun hlt u' e' heq => ?_, fun hall => hall u e rfl⟩)
    cases heq
    exact hlt

/-- Wherever it is cut, the outbound half alone comes to the end of its source before the session has to stop and before the
    inbound half ends it. -/
def RunsOut (s : Session) (leg : Leg σ κ η) (terms : Terms) : Prop :=
  ∃ limit, (s.outboundUntil leg terms.clock limit).ending = .exhausted ∧
    (s.outboundUntil leg terms.clock limit).time < s.stopsAt terms ∧
    ∀ t e, (s.inbound leg).ending = some (t, e) → (s.outboundUntil leg terms.clock limit).time < cutFor terms.first t

theorem run?_completes_alone (h : s.run? leg terms = some r) : Completes r ↔ RunsOut s leg terms := by
  have hrun := run?_outboundUntil h
  rw [run?_completes_iff h]
  constructor
  · intro ho
    have hlt := run?_time_lt_cut h (ho ▸ nofun)
    rw [hrun] at ho hlt
    exact ⟨_, ho, lt_cut_iff.mp hlt⟩
  · rintro ⟨limit, ho, hbefore⟩
    -- The half ends before the cut of the run, so that it ends alike there.
    have hsame : r.halves.outbound = s.outboundUntil leg terms.clock limit :=
      hrun.trans (Outbound.run_eq_of_time_lt (show (s.outboundUntil leg terms.clock limit).ending ≠ .cut from ho ▸ nofun)
        (lt_cut_iff.mpr hbefore))
    rw [hsame, ho]

end Run

/-! ### What went out -/

/-- The opening `o` of the session `s`, from either side. -/
inductive Opens (s : Session) : Opening → Prop
  | dialled (conn : Connection) (id : Identity) (config : Config) (now : Nat)
      (h : (dial conn id config now).ending = .opened s) : Opens s (dial conn id config now)
  | accepted (clock : Clock) (conn : Connection) (config : Config) (now : Nat)
      (h : (accept clock conn config now).ending = .opened s) : Opens s (accept clock conn config now)

/-- The audio messages on the wire make up `audio`, and the summary counts its bytes. -/
structure Delivers (s : Session) (o : Opening) (r : Report) (audio : Bytes) : Prop where
  whole : (Message.audio (messages o r)).flatten = audio
  sizes : ∀ b ∈ Message.audio (messages o r), 1 ≤ b.length ∧ b.length ≤ s.config.frameSize
  counted : ∃ summary, r.result = .ok summary ∧ summary.sent.bytes = audio.length

section Run
variable {σ κ η : Type} {s : Session} {leg : Leg σ κ η} {terms : Terms} {r : Report} {o : Opening}

/-- Before a session there is no more on the wire than the identity. -/
theorem Opens.front (ho : Opens s o) :
    ∃ front : List Message, Transfer.bytesOf o.pieces = front.flatMap Message.encode ∧ ∀ m ∈ front, m.kind ≠ .audio := by
  cases ho with
  | dialled conn id config now hs =>
    rcases dial_pieces conn id config now with ⟨s', -, hbytes⟩ | ⟨hnone, -⟩
    · refine ⟨_, hbytes.trans (encodeIdentity_flatMap id), List.forall_mem_singleton.mpr ?_⟩
      rw [Message.announce, Message.kind_ofKind]
      decide
    · exact absurd hs (hnone s)
  | accepted clock conn config now hs => exact ⟨[], by rw [accept_pieces]; rfl, List.forall_mem_nil _⟩

theorem Opens.audio (ho : Opens s o) (h : s.run? leg terms = some r) :
    Message.audio (messages o r) = r.halves.outbound.sent := by
  obtain ⟨front, hfront, hkinds⟩ := ho.front
  have hspeaks := run?_speaks h o
  rw [hfront] at hspeaks
  exact hspeaks.audio hkinds

theorem total_length (bs : List Bytes) : total (bs.map List.length) = bs.flatten.length := by
  induction bs with
  | nil => rfl
  | cons b bs ih => simp only [total, List.map_cons, List.foldr_cons, List.flatten_cons, List.length_append] at ih ⊢; omega

theorem run?_delivers (ho : Opens s o) (h : s.run? leg terms = some r) (hobeys : leg.source.Obeys) (hc : Completes r) :
    Delivers s o r r.halves.outbound.sent.flatten := by
  have hrun := run?_outboundUntil h
  refine ⟨congrArg List.flatten (ho.audio h), ?_, ?_⟩
  · rw [ho.audio h, hrun]
    exact Outbound.run_sizes hobeys
  · obtain ⟨summary, hok, -⟩ := hc
    obtain ⟨d, -, rfl⟩ := run?_ok h hok
    exact ⟨_, hok, total_length _⟩

/-- What every request keeps is true of the audio of a session that is completed, at its end. -/
theorem run?_keeps {Q : Nat → Bytes → σ → Prop} (h : s.run? leg terms = some r) (hkeeps : leg.source.Keeps Q)
    (hq : Q s.opened [] leg.voice) (hc : Completes r) : ∃ voice t a, leg.source.next voice s.config.frameSize t = some a ∧
      a.supply = .done ∧ r.halves.ending.time = t + a.delay ∧ Q (t + a.delay) r.halves.outbound.sent.flatten a.source := by
  have hexhausted := (run?_completes_iff h).mp hc
  rw [run?_completed_time h hexhausted]
  rw [run?_outboundUntil h] at hexhausted ⊢
  exact Outbound.run_keeps hkeeps hq hexhausted

end Run

section Sources
variable {κ η : Type} {s : Session} {terms : Terms} {r : Report} {o : Opening}

theorem run?_clip {leg : Leg Clip κ η} (ho : Opens s o) (hsource : leg.source = Clip.source) (hmemory : leg.voice.InMemory)
    (h : s.run? leg terms = some r) (hc : Completes r) : Delivers s o r leg.voice.rest := by
  obtain ⟨voice, t, a, hnext, hdone, -, hsame, hrest⟩ := run?_keeps h (hsource ▸ leg.voice.plays_keeps) ⟨rfl, rfl⟩ hc
  rw [hsource] at hnext
  have hdata : a.source.InMemory := by
    rwa [Clip.InMemory, hsame]
  rw [Clip.rest_of_done s.valid.frame_pos s.valid.frame_le hnext hdone hdata, List.append_nil] at hrest
  rw [hrest]
  exact run?_delivers ho h (hsource ▸ Clip.obeys) hc

theorem run?_feed {leg : Leg Feed κ η} (ho : Opens s o) (hsource : leg.source = Feed.source)
    (h : s.run? leg terms = some r) (hc : Completes r) :
    Delivers s o r (leg.voice.pending ++ Feed.bytesOf leg.voice.frames) ∧
      (∃ t, leg.voice.closes = some t ∧ t ≤ r.halves.ending.time) ∧ ∀ f ∈ leg.voice.frames, f.1 ≤ r.halves.ending.time := by
  obtain ⟨voice, t, a, hnext, hdone, htime, taken, hframes, hcloses, hall, hbytes⟩ :=
    run?_keeps h (hsource ▸ leg.voice.plays_keeps) (leg.voice.plays_nothing _) hc
  rw [hsource] at hnext
  rcases (Feed.next_cases hnext).2 with ⟨b, hb, -⟩ | ⟨-, hnone, hpending, close, hclose, hle⟩
  · cases hb.symm.trans hdone
  · -- Nothing is left behind the frames taken, and no rest of the last one.
    rw [hnone, List.append_nil] at hframes
    rw [hpending, List.append_nil, ← hframes] at hbytes
    rw [hbytes, htime, hframes]
    exact ⟨run?_delivers ho h (hsource ▸ Feed.obeys) hc, ⟨close, hcloses ▸ hclose, hle⟩, hall⟩

theorem run?_voice {leg : Leg HostVoice κ η} (ho : Opens s o) (hsource : leg.source = HostVoice.source)
    (h : s.run? leg terms = some r) (hc : Completes r) :
    ∃ taken rest, leg.voice.leg.frames = taken ++ rest ∧ Delivers s o r (leg.voice.pending ++ HostLeg.voices taken) ∧
      HostLeg.ReadBy leg.voice.leg.up leg.voice.leg.reads taken r.halves.ending.time ∧
      leg.voice.leg.up (leg.voice.leg.reads + taken.length) r.halves.ending.time = false := by
  obtain ⟨voice, t, a, hnext, hdone, htime, taken, hframes, hcount, hup, hread, hbytes⟩ :=
    run?_keeps h (hsource ▸ leg.voice.plays_keeps) (leg.voice.plays_nothing _) hc
  rw [hsource] at hnext
  rcases (HostVoice.next_cases hnext fun e he => by cases hdone.symm.trans he).2 with ⟨b, hb, -⟩ | ⟨-, hpending, hdown⟩
  · cases hb.symm.trans hdone
  · rw [hpending, List.append_nil] at hbytes
    rw [hup, hcount] at hdown
    have hdelivers := run?_delivers ho h (hsource ▸ HostVoice.obeys) hc
    rw [← hbytes] at hdelivers
    rw [htime]
    exact ⟨taken, _, hframes, hdelivers, hread, hdown⟩

end Sources

/-- What goes out in a session that is completed is all audio of its source: of a clip the whole samples, of a feed the
    frames sent before it was closed, and of a host channel the voice read until the leg was found down. And a session
    is completed whenever the source comes to its end before anything else ends the session. -/
theorem completed_delivers {κ η : Type} {s : Session} {o : Opening} (ho : Opens s o) (terms : Terms) :
    (∀ {σ : Type} (leg : Leg σ κ η), ((s.run? leg terms).isSome ↔ (terms.clock.add? s.opened Clock.farFuture).isSome ∧
        (terms.clock.add? s.opened s.config.cadence).isSome) ∧
      ∀ r, s.run? leg terms = some r → (Completes r ↔ RunsOut s leg terms)) ∧
    (∀ (leg : Leg Clip κ η) r, leg.source = Clip.source → leg.voice.InMemory → s.run? leg terms = some r →
      Completes r → Delivers s o r ((leg.voice.data.take leg.voice.playable).drop leg.voice.offset)) ∧
    (∀ (leg : Leg Feed κ η) r, leg.source = Feed.source → s.run? leg terms = some r → Completes r →
      Delivers s o r (leg.voice.pending ++ Feed.bytesOf leg.voice.frames) ∧
        (∃ t, leg.voice.closes = some t ∧ t ≤ r.halves.ending.time) ∧ ∀ f ∈ leg.voice.frames, f.1 ≤ r.halves.ending.time) ∧
    ∀ (leg : Leg HostVoice κ η) r, leg.source = HostVoice.source → s.run? leg terms = some r → Completes r →
      ∃ taken rest, leg.voice.leg.frames = taken ++ rest ∧ Delivers s o r (leg.voice.pending ++ HostLeg.voices taken) ∧
        HostLeg.ReadBy leg.voice.leg.up leg.voice.leg.reads taken r.halves.ending.time ∧
        leg.voice.leg.up (leg.voice.leg.reads + taken.length) r.halves.ending.time = false := by
  refine ⟨fun leg => ⟨run?_isSome_iff, fun r h => run?_completes_alone h⟩, ?_, ?_, ?_⟩
  · intro leg r hsource hmemory h hc
    exact run?_clip ho hsource hmemory h hc
  · intro leg r hsource h hc
    exact run?_feed ho hsource h hc
  · intro leg r hsource h hc
    exact run?_voice ho hsource h hc

/-! ### Three sources of the same audio -/

/-- A clip with an odd byte at its end. -/
def oddLeg : Leg Clip Unit Unit := ⟨Clip.source, ⟨[1, 2, 3, 4, 5], 0⟩, Sink.discard, (), Handler.ignore, ()⟩

def feedLeg : Leg Feed Unit Unit :=
  ⟨Feed.source, ⟨[(0, [1, 2, 3]), (Span.ofMillis 10, []), (Span.ofMillis 50, [4])], some (Span.ofMillis 60), []⟩,
    Sink.discard, (), Handler.ignore, ()⟩

/-- The leg goes down behind the third frame, and the fourth one is never read. -/
def voiceLeg : Leg HostVoice Unit Unit :=
  ⟨HostVoice.source, ⟨⟨[(0, .voice [1, 2, 3]), (0, .other), (Span.ofMillis 50, .voice [4]), (0, .voice [5])], 0,
    fun reads _ => reads < 3⟩, []⟩, Sink.discard, (), Handler.ignore, ()⟩

/-- Three bytes at a time are accepted, so that no message goes out in one piece. -/
def narrowLine : Outflow := { most := fun _ => 3 }

def narrowDialled : Opening := dial ⟨[], narrowLine⟩ (.repeated 7) { frameSize := 2 } 0

theorem narrow_delivered : ∃ s clip feed voice, narrowDialled.ending = .opened s ∧
    s.run? oddLeg stalledTerms = some clip ∧ s.run? feedLeg stalledTerms = some feed ∧
    s.run? voiceLeg stalledTerms = some voice ∧ Completes clip ∧ Delivers s narrowDialled clip [1, 2, 3, 4] ∧
    Delivers s narrowDialled feed [1, 2, 3, 4] ∧ Delivers s narrowDialled voice [1, 2, 3, 4] := by
  obtain ⟨s, clip, feed, voice, hopened, hclip, hfeed, hvoice, hc, hf, hv⟩ : ∃ s clip feed voice,
      narrowDialled.ending = .opened s ∧ s.run? oddLeg stalledTerms = some clip ∧ s.run? feedLeg stalledTerms = some feed ∧
      s.run? voiceLeg stalledTerms = some voice ∧ clip.result.map Summary.disposition = .ok .completed ∧
      feed.result.map Summary.disposition = .ok .completed ∧ voice.result.map Summary.disposition = .ok .completed := by
    with_unfolding_all exact ⟨_, _, _, _, rfl, rfl, rfl, rfl, rfl, rfl, rfl⟩
  have hcompletes := completes_iff_map.mpr hc
  have hopens : Opens s narrowDialled := .dialled _ _ _ _ hopened
  obtain ⟨-, hclips, hfeeds, hvoices⟩ := @completed_delivers Unit Unit s narrowDialled hopens stalledTerms
  refine ⟨s, clip, feed, voice, hopened, hclip, hfeed, hvoice, hcompletes, ?_, ?_, ?_⟩
  · have hmemory : oddLeg.voice.InMemory := by
      unfold Clip.InMemory
      decide
    exact hclips oddLeg clip rfl hmemory hclip hcompletes
  · exact (hfeeds feedLeg feed rfl hfeed (completes_iff_map.mpr hf)).1
  · obtain ⟨taken, rest, hframes, hdelivers, hread, hdown⟩ := hvoices voiceLeg voice rfl hvoice (completes_iff_map.mpr hv)
    -- Three reads found the leg up, and the look behind them found it down.
    have hlength : taken.length = 3 := by
      have hlast : 3 ≤ taken.length := by simpa [voiceLeg] using hdown
      refine Nat.le_antisymm (Nat.le_of_not_lt fun hlt => ?_) hlast
      obtain ⟨look, -, hup⟩ := hread.up 3 hlt
      simp [voiceLeg] at hup
    have htaken : taken = voiceLeg.voice.leg.frames.take 3 := by rw [hframes, ← hlength, List.take_left]
    rw [htaken] at hdelivers
    exact hdelivers

end Session
end CallRelay
