import CallRelay.Proofs.Session.Samples

/-! # Chunks that fit no message

A chunk that is longer than a message can be is the only thing in a session that the codec refuses: reading fails for
want of bytes alone, and then more are read. Such a chunk ends the session at its tick, and nothing of it is sent. A
source that yields no more than it is asked for never has one. -/

namespace CallRelay

/-! ### What the codec refuses -/

theorem ne_nil_of_encode_error {k : Kind} {p : Bytes} {e : CodecFault} (h : encodeMessage k p = .error e) : p ≠ [] := by
  rintro rfl
  exact Nat.not_lt_zero _ (encodeMessage_eq_error_iff.mp h).1

/-- What is handed out is no longer than was asked for. -/
def Supply.Fits (room : Nat) (x : Supply) : Prop := x.audio.length ≤ room

namespace Reader

/-- Whatever arrives, the only error of a reader is a fault of its connection. -/
theorem readFailure_of_next {r r' : Reader} {now t : Nat} {limit : Option Nat} {e : RelayError}
    (h : r.next now limit = (r', some (t, .failed e))) : ∃ f, e = .readFailure f := by
  have hanswers : r.inflow.answers r.buffer = [] ++ .failed e :: r'.answers := answers_of_next h nofun
  obtain ⟨-, -, f, -, -, -, he, -⟩ := Inflow.answers_failed hanswers
  exact ⟨f, he⟩

theorem next_ne_codec (r : Reader) (now : Nat) (limit : Option Nat) (t : Nat) (f : CodecFault) :
    (r.next now limit).2 ≠ some (t, .failed (.codec f)) := by
  intro h
  have hnext : r.next now limit = ((r.next now limit).1, some (t, .failed (.codec f))) := Prod.ext rfl h
  obtain ⟨f', hf⟩ := readFailure_of_next hnext
  cases hf

end Reader

theorem Message.ending?_ne_codec (m : Message) (f : CodecFault) : m.ending? ≠ some (.failed (.codec f)) := by
  unfold ending?
  split
  · nofun
  · nofun
  · split
    · nofun
    · nofun
  · nofun

namespace Inbound

theorem run_ne_codec {κ η : Type} (sink : Sink κ) (handler : Handler η) (r : Reader) (k : κ) (h : η) (now t : Nat)
    (f : CodecFault) :
    (run sink handler r k h now).ending ≠ some (t, .failed (.codec f)) := by
  intro hend
  cases run_deals sink handler r k h now with
  | all k' h' hdue htakes hstop =>
    rw [hend, Option.map_some, endOf] at hstop
    rcases Option.or_eq_some_iff.mp hstop.symm with hfound | ⟨-, hstop⟩
    · obtain ⟨m, -, hm⟩ := List.exists_of_findSome?_eq_some hfound
      exact m.ending?_ne_codec f hm
    · rcases Inflow.stop?_cases hstop with hclosed | ⟨f', hfault⟩
      · cases hclosed
      · cases hfault
  | refused before t' b k' h' p f' hacts hdue htakes hw hf hstop =>
    rw [hend] at hstop
    cases hstop
  | waits before t' d k' h' hacts hdue htakes hhangs hstop =>
    rw [hend] at hstop
    cases hstop

end Inbound

namespace Session

theorem dial_ne_codec (conn : Connection) (id : Identity) (config : Config) (now t : Nat) (f : CodecFault) :
    (dial conn id config now).ending ≠ .refused t (.codec f) := by
  intro h
  unfold dial at h
  split at h
  · cases h
  · simp only at h
    split at h <;> cases h

theorem accept_ne_codec (clock : Clock) (conn : Connection) (config : Config) (now t : Nat) (f : CodecFault) :
    (accept clock conn config now).ending ≠ .refused t (.codec f) := by
  intro h
  have hrejects : ∀ {u e}, Rejects clock config u e (accept clock conn config now) → e = .codec f := by
    rintro u e ⟨-, -, limit, v, -, hend, -⟩
    cases h.symm.trans hend
    rfl
  cases hf : config.fault? with
  | some cf =>
    rw [accept_of_fault hf] at h
    cases h
  | none =>
    have hdecides : Decides clock conn config now _ (accept clock conn config now) :=
      accept_of_valid (Config.fault?_eq_none_iff.mp hf)
    cases hdecides with
    | identity u m s hfirst hu hkind hlength hs => cases h.symm.trans hs.ending
    | other u m hfirst hu hm hrej => cases hrejects hrej
    | ended u hfirst hu hrej => cases hrejects hrej
    | failed u g hfirst hu hrej => cases hrejects hrej
    | late hfirst hrej => cases hrejects hrej

end Session

/-! ### The outbound half -/

namespace Outbound
variable {σ : Type} {src : Source σ} {out : Outflow} {p : Pacing} {limit limit' : Nat} {s : σ} {mark : Mark} {now due : Nat}

/-- The half has a chunk in hand that fits no message and has its tick at `t`. -/
structure Overfull (tick : Nat → Nat) (chunk : Bytes) (t : Nat) (o : Outbound) : Prop where
  held : ∃ asked answered, o.phase = .holding asked answered chunk ∧ t = max answered (tick (o.turns.length + 1))
  long : maxPayload < chunk.length

theorem run_codec {e : CodecFault} (h : (run src out p limit s mark now due).ending = .failed (.codec e)) :
    ∃ asked answered chunk, (run src out p limit s mark now due).phase = .holding asked answered chunk := by
  fun_induction run src out p limit s mark now due with
  | case1 s mark now due phase time ending lines hturn =>
    have hcomes := Turn.take_comesTo src out p limit s mark now due
    obtain rfl : ending = .failed (.codec e) := h
    rw [hturn] at hcomes
    cases hcomes with
    | chunk ha hs hx =>
      cases hx with
      | tooLong hlim hc hw => exact ⟨_, _, _, rfl⟩
  | case2 s mark now due turn time s' mark' lines hturn ih => exact ih h

theorem take_held {asked answered time : Nat} {chunk : Bytes} {ending : OutboundEnd} {lines : List (Nat × Line)}
    (hle : limit ≤ limit')
    (h : Turn.take src out p limit s mark now due = .stopped (.holding asked answered chunk) time ending lines)
    (hlong : maxPayload < chunk.length) :
    ∃ time' ending', Turn.take src out p limit' s mark now due =
      .stopped (.holding asked answered chunk) time' ending' lines := by
  have hcomes := Turn.take_comesTo src out p limit s mark now due
  have hcomes' := Turn.take_comesTo src out p limit' s mark now due
  rw [h] at hcomes
  generalize Turn.take src out p limit' s mark now due = x at hcomes'
  have hholds : ∃ a, Turn.Answered src p limit s now a ∧ a.supply = .chunk chunk ∧ asked = now ∧ answered = now + a.delay ∧
      lines = a.linesFrom now := by
    cases hcomes with
    | chunk ha hs hx => cases hx <;> exact ⟨_, ha, hs, rfl, rfl, rfl⟩
  obtain ⟨a, ha, hs, rfl, rfl, rfl⟩ := hholds
  have herror : encodeAudio chunk = .error (.payloadTooLarge chunk.length) := encodeMessage_eq_error_iff.mpr ⟨hlong, rfl⟩
  cases hcomes' with
  | late hlim => exact absurd (Nat.lt_of_lt_of_le ha.asked hle) (Nat.not_lt_of_le hlim)
  | unanswered hlim hnone => exact absurd (Nat.lt_of_lt_of_le ha.answered hle) (Nat.not_lt_of_le (hnone a ha.next))
  | failed ha' hs' =>
    cases ha.next.symm.trans ha'.next
    cases hs.symm.trans hs'
  | exhausted ha' hs' =>
    cases ha.next.symm.trans ha'.next
    cases hs.symm.trans hs'
  | chunk ha' hs' hx =>
    cases ha.next.symm.trans ha'.next
    cases hs.symm.trans hs'
    cases hx with
    | late hlim => exact ⟨_, _, rfl⟩
    | tooLong hlim hc hw => exact ⟨_, _, rfl⟩
    | empty hlim hc => exact absurd hc (ne_nil_of_encode_error herror)
    | sent hlim hc hw => cases herror.symm.trans hw
    | broken hlim hc hw => cases herror.symm.trans hw
    | cut hlim hc hw => cases herror.symm.trans hw

/-- A chunk that fits no message stays in hand, behind the same turns, if the half is cut later. -/
theorem run_held {asked answered : Nat} {chunk : Bytes} (hle : limit ≤ limit')
    (h : (run src out p limit s mark now due).phase = .holding asked answered chunk) (hlong : maxPayload < chunk.length) :
    (run src out p limit' s mark now due).phase = .holding asked answered chunk ∧
      (run src out p limit' s mark now due).turns = (run src out p limit s mark now due).turns := by
  fun_induction run src out p limit s mark now due with
  | case1 s mark now due phase time ending lines hturn =>
    obtain rfl : phase = .holding asked answered chunk := h
    obtain ⟨time', ending', hturn'⟩ := take_held hle hturn hlong
    rw [run_of_stopped hturn']
    exact ⟨rfl, rfl⟩
  | case2 s mark now due turn time s' mark' lines hturn ih =>
    have hturn' : Turn.take src out p limit' s mark now due = .finished turn time s' mark' lines := by
      have hcut := Turn.take_cut src out p s mark now due hle
      rw [hturn] at hcut
      generalize Turn.take src out p limit' s mark now due = x at hcut
      cases hcut with
      | same => rfl
    obtain ⟨hphase, hturns⟩ := ih h
    rw [run_of_finished hturn']
    exact ⟨hphase, congrArg (turn :: ·) hturns⟩

end Outbound

/-! ### The session -/

namespace Session

/-- Wherever it is cut, the outbound half alone holds the chunk, which fits no message, until its tick at `t`; and the
    tick comes before the session has to stop and before the inbound half ends it. -/
def Overfills {σ κ η : Type} (s : Session) (leg : Leg σ κ η) (terms : Terms) (chunk : Bytes) (t : Nat) : Prop :=
  ∃ limit, (s.outboundUntil leg terms.clock limit).Overfull (s.tick terms.clock) chunk t ∧ t < s.stopsAt terms ∧
    ∀ u e, (s.inbound leg).ending = some (u, e) → t < cutFor terms.first u

/-- The run has failed at `t` with the chunk in hand. -/
structure Chokes (s : Session) (o : Opening) (chunk : Bytes) (t : Nat) (r : Report) : Prop where
  result : r.result = .error (.codec (.payloadTooLarge chunk.length))
  ending : r.halves.ending = ⟨t, .outbound, .error (.codec (.payloadTooLarge chunk.length))⟩
  /-- All chunks before have been sent. -/
  chunks : r.halves.outbound.chunks = r.halves.outbound.sent ++ [chunk]
  /-- The wire ends with a whole message, and its audio is that of the chunks before. -/
  whole : wire o r = (messages o r).flatMap Message.encode
  audio : Message.audio (messages o r) = r.halves.outbound.sent

section Run
variable {σ κ η : Type} {s : Session} {leg : Leg σ κ η} {terms : Terms} {r : Report} {o : Opening} {chunk : Bytes}
  {t limit limit' : Nat} {f : CodecFault}

/-- A half that has such a chunk in hand ends at its tick, unless it is cut before. -/
theorem outboundUntil_overfull (h : (s.outboundUntil leg terms.clock limit).Overfull (s.tick terms.clock) chunk t)
    (ht : t < limit') :
    (s.outboundUntil leg terms.clock limit').Overfull (s.tick terms.clock) chunk t ∧
      (s.outboundUntil leg terms.clock limit').ending = .failed (.codec (.payloadTooLarge chunk.length)) ∧
      (s.outboundUntil leg terms.clock limit').time = t := by
  -- What is held at a cut behind the tick is not held for the cut.
  have hends : ∀ {u}, (s.outboundUntil leg terms.clock u).Overfull (s.tick terms.clock) chunk t → t < u →
      (s.outboundUntil leg terms.clock u).ending = .failed (.codec (.payloadTooLarge chunk.length)) ∧
        (s.outboundUntil leg terms.clock u).time = t := by
    rintro u ⟨⟨asked, answered, hphase, htick⟩, -⟩ hu
    rcases (s.outboundUntil_scheduled leg terms.clock u).held asked answered chunk hphase with ⟨-, hlate⟩ |
        ⟨e, hw, hending, htime⟩
    · omega
    · obtain ⟨-, rfl⟩ := encodeMessage_eq_error_iff.mp hw
      exact ⟨hending, htime.trans htick.symm⟩
  rcases Nat.le_total limit limit' with hle | hle
  · obtain ⟨⟨asked, answered, hphase, htick⟩, hlong⟩ := h
    obtain ⟨hphase', hturns⟩ := Outbound.run_held hle hphase hlong
    have hover : (s.outboundUntil leg terms.clock limit').Overfull (s.tick terms.clock) chunk t := by
      refine ⟨⟨asked, answered, hphase', ?_⟩, hlong⟩
      rw [htick]
      exact congrArg (fun l : List Turn => max answered (s.tick terms.clock (l.length + 1))) hturns.symm
    exact ⟨hover, hends hover ht⟩
  · obtain ⟨hending, htime⟩ := hends h (Nat.lt_of_lt_of_le ht hle)
    have hsame : s.outboundUntil leg terms.clock limit' = s.outboundUntil leg terms.clock limit :=
      Outbound.run_eq_of_time_lt (show (s.outboundUntil leg terms.clock limit).ending ≠ .cut from hending ▸ nofun)
        (htime ▸ ht)
    rw [hsame]
    exact ⟨h, hending, htime⟩

theorem run?_overfull (h : s.run? leg terms = some r) (hover : Overfills s leg terms chunk t) :
    r.halves.outbound.Overfull (s.tick terms.clock) chunk t ∧
      r.halves.outbound.ending = .failed (.codec (.payloadTooLarge chunk.length)) ∧ r.halves.outbound.time = t := by
  obtain ⟨limit, hheld, hbefore⟩ := hover
  rw [run?_outboundUntil h]
  exact outboundUntil_overfull hheld (lt_cut_iff.mpr hbefore)

/-- The codec fails a run in the outbound half only, and over a chunk that fits no message. -/
theorem run?_overfills (h : s.run? leg terms = some r) (hr : r.result = .error (.codec f)) :
    ∃ chunk t, Overfills s leg terms chunk t := by
  have hout : r.halves.outbound.ending = .failed (.codec f) := by
    rcases (run?_failed_iff h).mp hr with hout | ⟨-, t, hin⟩
    · exact hout
    · exact absurd hin (Inbound.run_ne_codec _ _ _ _ _ _ t f)
  have hlt := run?_time_lt_cut h (hout ▸ nofun)
  have hscheduled := run?_scheduled h
  rw [run?_outboundUntil h] at hout hlt hscheduled
  obtain ⟨asked, answered, chunk, hphase⟩ := Outbound.run_codec hout
  rcases hscheduled.held asked answered chunk hphase with ⟨hcut, -⟩ | ⟨e, hw, -, htime⟩
  · cases hcut.symm.trans hout
  · obtain ⟨hlong, -⟩ := encodeMessage_eq_error_iff.mp hw
    rw [htime] at hlt
    exact ⟨chunk, _, _, ⟨⟨asked, answered, hphase, rfl⟩, hlong⟩, lt_cut_iff.mp hlt⟩

/-- A wire without a part of a message is the bytes of its messages. -/
theorem wire_whole {ms : List Message} (h : wire o r = ms.flatMap Message.encode) :
    wire o r = (messages o r).flatMap Message.encode := by
  have hread := Message.decodeAll_encodes_append ms []
  rw [List.append_nil, Message.decodeAll_of_error Message.decode_nil, List.append_nil, ← h] at hread
  rw [messages, hread]
  exact h

theorem run?_chokes (ho : Opens s o) (h : s.run? leg terms = some r) (hover : Overfills s leg terms chunk t) :
    Chokes s o chunk t r := by
  obtain ⟨⟨⟨asked, answered, hphase, -⟩, hlong⟩, hending, htime⟩ := run?_overfull h hover
  have herror : encodeAudio chunk = .error (.payloadTooLarge chunk.length) := encodeMessage_eq_error_iff.mpr ⟨hlong, rfl⟩
  have hended : r.halves.ending = ⟨t, .outbound, .error (.codec (.payloadTooLarge chunk.length))⟩ := by
    have hends := run?_ends h
    generalize r.halves.ending = ended at hends
    cases hends with
    | exhausted hout => cases hending.symm.trans hout
    | failed e hout =>
      cases hending.symm.trans hout
      rw [htime]
    | stopped hout => cases hending.symm.trans hout
    | inbound u e hout => cases hending.symm.trans hout
  have hchunks : r.halves.outbound.chunks = r.halves.outbound.sent ++ [chunk] := by
    rw [Outbound.chunks_eq, hphase]
    exact congrArg (r.halves.outbound.sent ++ ·) (List.filter_cons_of_pos (by simpa using ne_nil_of_encode_error herror))
  refine ⟨(run?_failed_iff h).mpr (Or.inl hending), hended, hchunks, ?_, ho.audio h⟩
  obtain ⟨front, hfront, -⟩ := ho.front
  obtain ⟨frames, rest, hframes, hwire, hrest⟩ := (run?_speaks h o).wire
  obtain ⟨ms, -, -, hflat⟩ := Message.of_mapM_encodeAudio hframes
  -- Behind the messages sent there is no part of the next one, which cannot be written, and no hangup.
  have hnil : rest = [] := by
    rcases hrest with ⟨c, w, hc, hw, -⟩ | ⟨-, hnormal⟩
    · rw [hchunks, List.getElem?_append_right (Nat.le_refl _), Nat.sub_self] at hc
      cases hc
      cases herror.symm.trans hw
    · refine Decidable.not_not.mp fun hne => ?_
      rcases (hnormal hne).2 with ⟨hout, -⟩ | ⟨hout, -⟩ <;> cases hending.symm.trans hout
  have hbytes : wire o r = (front ++ ms).flatMap Message.encode := by
    rw [hwire, hnil, List.append_nil, hfront, hflat, List.flatMap_append]
  exact wire_whole hbytes

/-- Whatever a source yields that hands out no more than it is asked for can be written. -/
theorem run?_fits (h : s.run? leg terms = some r)
    (hs : leg.source.Supplies s.config.frameSize leg.voice (Supply.Fits s.config.frameSize)) :
    ∀ y ∈ r.halves.outbound.yielded, y.2.length ≤ maxPayload := by
  intro y hy
  have hyields : leg.source.Yields s.config.frameSize r.halves.outbound.time leg.voice r.halves.outbound.yielded
      r.halves.outbound.phase.asked? := by
    rw [run?_outboundUntil h]
    exact Outbound.run_yields leg.source s.outflow (s.pacing terms.clock) _ leg.voice s.mark s.opened _
  have hfits : y.2.length ≤ s.config.frameSize := hyields.supplied hs .start y hy
  exact Nat.le_trans hfits s.valid.frame_le

/-- Nothing that arrives makes the codec fail, neither while a session is opened nor while it runs. What makes it fail
    is a chunk that fits no message and reaches its tick before anything else ends the session; nothing of it is sent
    then, and the wire ends with a whole message. A source that hands out no more than it is asked for has no such
    chunk. -/
theorem codec_fails_for_oversize (ho : Opens s o) (h : s.run? leg terms = some r) :
    ((∃ f, r.result = .error (.codec f)) ↔ ∃ chunk t, Overfills s leg terms chunk t) ∧
    (∀ chunk t, Overfills s leg terms chunk t → Chokes s o chunk t r) ∧
    (leg.source.Supplies s.config.frameSize leg.voice (Supply.Fits s.config.frameSize) →
      (∀ f, r.result ≠ .error (.codec f)) ∧ ∀ y ∈ r.halves.outbound.yielded, ∃ w, encodeAudio y.2 = .ok w) ∧
    (∀ conn id config now t f, (dial conn id config now).ending ≠ .refused t (.codec f)) ∧
    (∀ clock conn config now t f, (accept clock conn config now).ending ≠ .refused t (.codec f)) ∧
    ∀ (reader : Reader) now limit t f, (reader.next now limit).2 ≠ some (t, .failed (.codec f)) := by
  refine ⟨⟨fun ⟨f, hf⟩ => run?_overfills h hf, ?_⟩, fun chunk t hover => run?_chokes ho h hover, ?_, dial_ne_codec,
    accept_ne_codec, Reader.next_ne_codec⟩
  · rintro ⟨chunk, t, hover⟩
    exact ⟨_, (run?_chokes ho h hover).result⟩
  · intro hs
    have hfits := run?_fits h hs
    refine ⟨fun f hf => ?_, fun y hy => ⟨_, encodeMessage_eq_ok_iff.mpr ⟨hfits y hy, rfl⟩⟩⟩
    obtain ⟨chunk, t, hover⟩ := run?_overfills h hf
    obtain ⟨⟨⟨asked, answered, hphase, -⟩, hlong⟩, -⟩ := run?_overfull h hover
    have hmem : (asked, chunk) ∈ r.halves.outbound.yielded := by
      rw [Outbound.yielded, hphase]
      exact List.mem_append_right _ List.mem_cons_self
    exact Nat.not_lt_of_le (hfits _ hmem) hlong

end Run

/-! ### A chunk of one byte too many -/

def overlong : Bytes := List.replicate (maxPayload + 1) 0

theorem maxPayload_lt_overlong : maxPayload < overlong.length := by
  rw [overlong, List.length_replicate]
  exact Nat.lt_succ_self _

/-- The second chunk of the source fits no message. -/
def overlongLeg : Leg Script Unit Unit :=
  ⟨Script.source, [(0, .ok [1, 2]), (0, .ok overlong), (0, .ok [3, 4])], Sink.discard, (), Handler.ignore, ()⟩

def plainDialled : Opening := dial ⟨[], quickLine⟩ (.repeated 7) {} 0

theorem overlong_chokes : ∃ s r, plainDialled.ending = .opened s ∧ s.run? overlongLeg stalledTerms = some r ∧
    Chokes s plainDialled overlong (Span.ofMillis 40) r := by
  obtain ⟨s, hopened, hsome, htick, hbefore, hnone⟩ :
      ∃ s, plainDialled.ending = .opened s ∧ (s.run? overlongLeg stalledTerms).isSome ∧
      ((s.outboundUntil overlongLeg stalledTerms.clock (Span.ofMillis 30)).phase =
          .holding (Span.ofMillis 20) (Span.ofMillis 20) overlong ∧
        Span.ofMillis 40 = max (Span.ofMillis 20) (s.tick stalledTerms.clock
          ((s.outboundUntil overlongLeg stalledTerms.clock (Span.ofMillis 30)).turns.length + 1))) ∧
      Span.ofMillis 40 < s.stopsAt stalledTerms ∧ (s.inbound overlongLeg).ending = none := by
    with_unfolding_all exact ⟨_, rfl, rfl, ⟨rfl, rfl⟩, by decide, rfl⟩
  obtain ⟨r, hrun⟩ := Option.isSome_iff_exists.mp hsome
  have hopens : Opens s plainDialled := .dialled _ _ _ _ hopened
  obtain ⟨-, hchokes, -⟩ := codec_fails_for_oversize hopens hrun
  refine ⟨s, r, hopened, hrun,
    hchokes _ _ ⟨Span.ofMillis 30, ⟨⟨_, _, htick⟩, maxPayload_lt_overlong⟩, hbefore, fun u e hu => ?_⟩⟩
  cases hnone.symm.trans hu

end Session
end CallRelay
