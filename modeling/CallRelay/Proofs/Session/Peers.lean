import CallRelay.Proofs.Session.Inbound
import CallRelay.Proofs.Session.Wire
import CallRelay.Source.Silence

/-! # The two ends of a connection

An accepting session takes from the bytes of a dialled one what that one has put there: its identity, the
audio of every message that went out as a whole, in order, and the hangup. It ends with the hangup or, if
the dialled session stopped before it or in the middle of it, with the end of the stream. -/

namespace CallRelay

/-! ### The messages of a dialled session -/

namespace Message

/-- The payloads of the audio messages. -/
def audio (ms : List Message) : List Bytes := (ms.filter (·.kind = .audio)).map payload

def hungUp (ms : List Message) : Bool := ms.any (·.kind = .hangup)

def hangup : Message := .ofKind .hangup [] (Nat.zero_le _)

def announce (id : Identity) : Message := .ofKind .identity id.bytes id.bytes_le

theorem decodeAll_of_isCut {buf : Bytes} {m : Message} (h : IsCut buf m.encode) : (decodeAll buf).1 = [] := by
  obtain ⟨e, he⟩ := decode_of_prefix h.1 h.2
  rw [decodeAll_of_error he]

/-- What comes behind the whole messages is no message, or it is the hangup. -/
theorem decodeAll_rest {rest : Bytes}
    (h : (∃ c w, encodeAudio c = .ok w ∧ IsCut rest w) ∨ rest <+: encodeHangup) :
    (decodeAll rest).1 = [] ∨ (decodeAll rest).1 = [hangup] := by
  rcases h with ⟨c, w, hw, hcut⟩ | hpre
  · obtain ⟨hle, rfl⟩ := encodeMessage_eq_ok_iff.mp hw
    exact Or.inl (decodeAll_of_isCut hcut)
  · by_cases hall : rest = encodeHangup
    · right
      rw [hall, encodeHangup_eq, ← List.append_nil (encode _), decodeAll_encode_append, decodeAll_of_error decode_nil]
      rfl
    · exact Or.inl (decodeAll_of_isCut ⟨encodeHangup_eq ▸ hpre, encodeHangup_eq ▸ hall⟩)

section Parts
variable {id : Identity} {ms tail : List Message}

theorem audio_append_tail (haudio : ∀ m ∈ ms, m.kind = .audio) (htail : tail = [] ∨ tail = [.hangup]) :
    audio (ms ++ tail) = ms.map payload := by
  have hms : ms.filter (·.kind = .audio) = ms := List.filter_eq_self.mpr fun m hm => by simpa using haudio m hm
  have htl : tail.filter (·.kind = .audio) = [] := by rcases htail with rfl | rfl <;> rfl
  rw [audio, List.filter_append, hms, htl, List.append_nil]

theorem audio_of_parts (haudio : ∀ m ∈ ms, m.kind = .audio) (htail : tail = [] ∨ tail = [.hangup]) :
    audio (announce id :: (ms ++ tail)) = ms.map payload := by
  have hid : (announce id).kind ≠ .audio := by rw [announce, kind_ofKind]; decide
  have hskip : audio (announce id :: (ms ++ tail)) = audio (ms ++ tail) :=
    congrArg (List.map payload) (List.filter_cons_of_neg (by simpa using hid))
  rw [hskip, audio_append_tail haudio htail]

theorem hungUp_announce (ms : List Message) : hungUp (announce id :: ms) = hungUp ms := by
  have hid : (announce id).kind ≠ .hangup := by rw [announce, kind_ofKind]; decide
  simp [hungUp, hid]

end Parts

end Message

namespace Session

/-- The bytes of a session are read as the messages at its front, the audio sent and, at most, a hangup. -/
theorem Speaks.messages_behind {σ : Type} {src : Source σ} {room : Nat} {voice : σ} {front : List Message} {o : Opening}
    {r : Report} (h : Speaks src room voice (front.flatMap Message.encode) o r) : ∃ ms tail : List Message,
      (Message.decodeAll (Session.wire o r)).1 = front ++ (ms ++ tail) ∧
      ms.map Message.payload = r.halves.outbound.sent ∧ (∀ m ∈ ms, m.kind = .audio) ∧
      (tail = [] ∨ tail = [.hangup]) := by
  obtain ⟨frames, rest, hframes, hwire, hrest⟩ := h.wire
  obtain ⟨ms, hms, haudio, hflat⟩ := Message.of_mapM_encodeAudio hframes
  refine ⟨ms, (Message.decodeAll rest).1, ?_, hms, haudio, Message.decodeAll_rest ?_⟩
  · rw [hwire, hflat, List.append_assoc, Message.decodeAll_encodes_append, Message.decodeAll_encodes_append]
  · rcases hrest with ⟨c, w, -, hw, hcut⟩ | ⟨hpre, -⟩
    · exact Or.inl ⟨c, w, hw, hcut⟩
    · exact Or.inr hpre

theorem encodeIdentity_flatMap (id : Identity) : encodeIdentity id = [Message.announce id].flatMap Message.encode := by
  rw [encodeIdentity_eq, List.flatMap_singleton]
  rfl

/-- The bytes of a dialled session are read as its identity, the audio sent and, at most, a hangup. -/
theorem Speaks.messages {σ : Type} {src : Source σ} {room : Nat} {voice : σ} {id : Identity} {o : Opening} {r : Report}
    (h : Speaks src room voice (encodeIdentity id) o r) : ∃ ms tail : List Message,
      (Message.decodeAll (Session.wire o r)).1 = .announce id :: (ms ++ tail) ∧
      ms.map Message.payload = r.halves.outbound.sent ∧ (∀ m ∈ ms, m.kind = .audio) ∧
      (tail = [] ∨ tail = [.hangup]) := by
  rw [encodeIdentity_flatMap] at h
  exact h.messages_behind

end Session

/-! ### The accepting session -/

namespace Session

/-- An identity that is there in time opens the session, which goes on behind it. -/
theorem accept_opened {clock : Clock} {conn : Connection} {config : Config} {now : Nat} {id : Identity}
    (hvalid : config.Valid)
    (hid : encodeIdentity id <+: conn.inflow.arrived (clock.expiry now config.bootstrapTimeout)) :
    ∃ s, (accept clock conn config now).ending = .opened s ∧ s.identity = id ∧
      (Reader.ofInflow conn.inflow).answers = .message (.announce id) :: s.reader.answers := by
  obtain ⟨r, t, hnext, -⟩ : ∃ r t, (Reader.ofInflow conn.inflow).next now
      (some (clock.expiry now config.bootstrapTimeout)) = (r, some (t, .message (.announce id))) ∧
        t ≤ clock.expiry now config.bootstrapTimeout :=
    Reader.next_of_arrived (clock.le_expiry _ _) (encodeIdentity_eq id ▸ hid)
  have hjudge : judge (.message (.announce id)) = .ok id := by
    have hk : (Message.announce id).kind = .identity := Message.kind_ofKind _ _ _
    have hp : (Message.announce id).payload = id.bytes := rfl
    rw [judge, Message.identity?, if_pos hk, hp, Identity.ofBytes?_bytes]
    rfl
  unfold accept
  split
  · next f hf =>
    rw [Config.fault?_eq_none_iff.mpr hvalid] at hf
    cases hf
  · simp only [hnext, hjudge]
    exact ⟨_, rfl, rfl, Reader.answers_of_next hnext (Heard.noConfusion ·)⟩

end Session

namespace Inbound

/-- Audio of whole samples is due, and nothing else, up to a hangup or the end of the stream. -/
theorem due_audio {ms tail : List Message} (haudio : ∀ m ∈ ms, m.kind = .audio)
    (heven : ∀ b ∈ ms.map Message.payload, b.length % 2 = 0) (htail : tail = [] ∨ tail = [.hangup]) :
    due (ms ++ tail) = (ms.map Message.payload).map .audio ∧ endOf (ms ++ tail) (some .peerClosed) =
      some (if Message.hungUp (ms ++ tail) then .peerHangup else .peerClosed) := by
  induction ms with
  | nil =>
    rcases htail with rfl | rfl
    · exact ⟨rfl, rfl⟩
    · exact ⟨rfl, rfl⟩
  | cons m ms ih =>
    obtain ⟨hm, hms⟩ := List.forall_mem_cons.mp haudio
    obtain ⟨hb, hbs⟩ := List.forall_mem_cons.mp heven
    obtain ⟨hdue, hend⟩ := ih hms hbs
    have hnone := (Message.ending?_of_audio hm).mpr hb
    refine ⟨?_, ?_⟩
    · rw [List.cons_append, due_cons_of_none hnone, hdue, routed_eq_audio hm]
      rfl
    · rw [List.cons_append, endOf_cons_of_none hnone, hend]
      simp [Message.hungUp, hm]

/-- What is handed over to the sink, and that the handler is told of nothing, when only audio is due. -/
theorem handed_of_due {acts : List (Nat × InboundAct)} {cs : List Bytes}
    (h : (handovers acts).map Prod.snd = cs.map .audio) : handedOf acts = cs ∧ toldOf acts = [] := by
  induction acts generalizing cs with
  | nil =>
    cases cs with
    | nil => exact ⟨rfl, rfl⟩
    | cons => cases h
  | cons a acts ih =>
    obtain ⟨t, act⟩ := a
    cases act with
    | handed b =>
      cases cs with
      | nil => cases h
      | cons c cs =>
        obtain ⟨hb, hrest⟩ := List.cons.inj h
        cases hb
        obtain ⟨hh, ht⟩ := ih hrest
        exact ⟨congrArg (b :: ·) hh, ht⟩
    | told e lines =>
      cases cs with
      | nil => cases h
      | cons c cs => cases (List.cons.inj h).1
    | took m => exact ih h
    | ranOut left => exact ih h
    | played b => exact ih h
    | refused b f => exact ih h

/-- A payload at which the hand-overs stop stands among those that are due, behind those handed over before. -/
theorem handed_of_refused {acts : List (Nat × InboundAct)} {cs : List Bytes} {before : List (Nat × Routed)} {t : Nat}
    {b : Bytes} (hacts : handovers acts = before ++ [(t, .audio b)])
    (hdue : (handovers acts).map Prod.snd <+: cs.map .audio) :
    ∃ front later, cs = front ++ b :: later ∧ handedOf acts = front ++ [b] ∧ toldOf acts = [] := by
  obtain ⟨rest, hrest⟩ := hdue
  obtain ⟨taken, later, rfl, htaken, -⟩ := List.map_eq_append_iff.mp hrest.symm
  have hlast : taken.map .audio = before.map Prod.snd ++ [.audio b] := by
    rw [htaken, hacts, List.map_append]
    rfl
  obtain ⟨front, last, rfl, -, hb⟩ := List.map_eq_append_iff.mp hlast
  obtain ⟨b', rfl, hb'⟩ := List.map_eq_singleton_iff.mp hb
  cases hb'
  obtain ⟨hhanded, htold⟩ := handed_of_due htaken.symm
  exact ⟨front, later, List.append_assoc _ _ _, hhanded, htold⟩

end Inbound

namespace Session

/-- How a run ends whose peer has sent the audio `cs` and then hung up or closed the connection, as `d` tells:
    all of it was taken, or the sink failed on a payload and was handed none behind it. -/
inductive Receives {κ : Type} (sink : Sink κ) (id : Identity) (cs : List Bytes) (d : Disposition) (r : Report) : Prop
  | all (hhanded : Inbound.handedOf r.halves.inbound = cs) (htold : Inbound.toldOf r.halves.inbound = [])
      (hresult : r.result = .ok ⟨id, d, r.halves.sent, .of cs⟩)
  | refused (front later : List Bytes) (b : Bytes) (k : κ) (t : Nat) (p : Played κ) (f : Fault)
      (hcs : cs = front ++ b :: later) (hhanded : Inbound.handedOf r.halves.inbound = front ++ [b])
      (htold : Inbound.toldOf r.halves.inbound = []) (hw : sink.write k b t = some p) (hf : p.outcome = .error f)
      (hresult : r.result = .error (.sinkFailure f))

/-- A session accepted on an identity, audio of whole samples and at most a hangup deals with that audio. -/
theorem accepted_deals {clock : Clock} {conn : Connection} {config : Config} {now : Nat} {id : Identity}
    {ms tail : List Message} (hvalid : config.Valid)
    (hid : encodeIdentity id <+: conn.inflow.arrived (clock.expiry now config.bootstrapTimeout))
    (hms : (Message.decodeAll conn.inflow.front).1 = .announce id :: (ms ++ tail))
    (hstop : conn.inflow.stop? = some .peerClosed) (haudio : ∀ m ∈ ms, m.kind = .audio)
    (heven : ∀ b ∈ ms.map Message.payload, b.length % 2 = 0) (htail : tail = [] ∨ tail = [.hangup]) :
    ∃ s, (accept clock conn config now).ending = .opened s ∧ s.identity = id ∧
      ∀ {σ κ η : Type} (leg : Leg σ κ η), Inbound.Deals leg.sink leg.handler leg.ear leg.watch
        ((ms.map Message.payload).map .audio)
        (some (if Message.hungUp (ms ++ tail) then .peerHangup else .peerClosed)) (s.inbound leg) := by
  obtain ⟨s, hs, hid', hanswers⟩ := accept_opened hvalid hid
  refine ⟨s, hs, hid', fun leg => ?_⟩
  have hanswers : conn.inflow.answers [] = .message (.announce id) :: s.reader.answers := hanswers
  -- Behind the identity the reader has the rest of the messages in store, and then the end.
  have hfront := Inflow.front_answers [] conn.inflow
  have hthen := Inflow.stop?_answers [] conn.inflow
  rw [hanswers, List.nil_append, hms] at hfront
  rw [hanswers, hstop] at hthen
  have hfront : Heard.front s.reader.answers = ms ++ tail := (List.cons.inj hfront).2
  have hthen : Heard.stop? s.reader.answers = some .peerClosed := hthen
  obtain ⟨hdue, hend⟩ := Inbound.due_audio haudio heven htail
  have hdeals := (Inbound.run_runs leg.sink leg.handler s.reader leg.ear leg.watch s.opened).deals
  rwa [hfront, hthen, hdue, hend] at hdeals

section Run
variable {σ κ η : Type} {s : Session} {leg : Leg σ κ η} {terms : Terms} {r : Report} {cs : List Bytes} {e : InboundEnd}
  {d : Disposition}

theorem run?_summary {summary : Summary} (hrun : s.run? leg terms = some r) (h : r.result = .ok summary) :
    summary.sent = .of r.halves.outbound.sent := by
  obtain ⟨d, -, rfl⟩ := run?_ok hrun h
  rfl

theorem run?_receives
    (hdeals : Inbound.Deals leg.sink leg.handler leg.ear leg.watch (cs.map .audio) (some e) (s.inbound leg))
    (he : inboundVerdict e = .ok d) (hrun : s.run? leg terms = some r) (hout : r.halves.ending.half ≠ .outbound) :
    Receives leg.sink s.identity cs d r := by
  have hin : r.halves.ending.half = .inbound := by
    cases hhalf : r.halves.ending.half with
    | outbound => exact absurd hhalf hout
    | inbound => rfl
  obtain ⟨hacts, t, e', hi, -, hresult⟩ := run?_inbound hrun hin
  rw [← hacts] at hresult
  cases hdeals with
  | all k' h' hdue htakes hend =>
    rw [← hacts] at hdue
    obtain ⟨hhanded, htold⟩ := Inbound.handed_of_due hdue
    rw [hi] at hend
    cases hend
    refine .all hhanded htold ?_
    rw [hresult, he, hhanded]
    rfl
  | refused before t' b k' h' p f hho hdue htakes hw hf hend =>
    rw [hi] at hend
    cases hend
    rw [← hacts] at hho hdue
    obtain ⟨front, later, hcs, hhanded, htold⟩ := Inbound.handed_of_refused hho hdue
    exact .refused front later b k' t' p f hcs hhanded htold hw hf hresult
  | waits before t' d' k' h' hho hdue htakes hhangs hend =>
    rw [hi] at hend
    cases hend

end Run

/-- The messages that can be read on the other end of a session. -/
def messages (o : Opening) (r : Report) : List Message := (Message.decodeAll (wire o r)).1

/-- How the other end of a session finds its stream to end. -/
def leaves (o : Opening) (r : Report) : Disposition := if Message.hungUp (messages o r) then .peerHangup else .peerClosed

/-- A session accepted on the bytes of a dialled one, however they are cut up and whenever they arrive, has the
    identity that was dialled, and its sink is handed the audio that was sent, in order and once each. -/
theorem dialled_received {σ κ η σ' κ' η' : Type} {dialler acceptor : Connection} {id : Identity}
    {config config' : Config} {now now' : Nat} {s : Session} {leg : Leg σ κ η} {terms : Terms} {r : Report} {clock : Clock}
    (hdial : (dial dialler id config now).ending = .opened s) (hrun : s.run? leg terms = some r)
    (heven : ∀ c ∈ r.halves.outbound.chunks, c.length % 2 = 0) (hvalid : config'.Valid)
    (hfront : acceptor.inflow.front = wire (dial dialler id config now) r)
    (hstop : acceptor.inflow.stop? = some .peerClosed)
    (hid : encodeIdentity id <+: acceptor.inflow.arrived (clock.expiry now' config'.bootstrapTimeout))
    (leg' : Leg σ' κ' η') :
    Message.audio (messages (dial dialler id config now) r) = r.halves.outbound.sent ∧
    (∀ summary, r.result = .ok summary → summary.sent = .of (Message.audio (messages (dial dialler id config now) r))) ∧
    ∃ s', (accept clock acceptor config' now').ending = .opened s' ∧ s'.identity = id ∧
      Inbound.Deals leg'.sink leg'.handler leg'.ear leg'.watch
        ((Message.audio (messages (dial dialler id config now) r)).map .audio)
        (some (if Message.hungUp (messages (dial dialler id config now) r) then .peerHangup else .peerClosed))
        (s'.inbound leg') ∧
      ∀ terms' r', s'.run? leg' terms' = some r' → r'.halves.ending.half ≠ .outbound →
        Receives leg'.sink id (Message.audio (messages (dial dialler id config now) r))
          (leaves (dial dialler id config now) r) r' := by
  have hspeaks := dial_speaks hdial hrun
  obtain ⟨ms, tail, hms, hsent, haudio, htail⟩ := hspeaks.messages
  have hms : messages (dial dialler id config now) r = .announce id :: (ms ++ tail) := hms
  have hheard : Message.audio (messages (dial dialler id config now) r) = r.halves.outbound.sent := by
    rw [hms, Message.audio_of_parts haudio htail, hsent]
  have hhung : Message.hungUp (ms ++ tail) = Message.hungUp (messages (dial dialler id config now) r) := by
    rw [hms, Message.hungUp_announce]
  have heven' : ∀ b ∈ ms.map Message.payload, b.length % 2 = 0 := fun b hb =>
    heven b (hspeaks.sent.subset (hsent ▸ hb))
  obtain ⟨s', hs', hid', hdeals⟩ := accepted_deals hvalid hid (hfront ▸ hms) hstop haudio heven' htail
  have hdeals := hdeals leg'
  rw [hsent, ← hheard, hhung] at hdeals
  refine ⟨hheard, fun summary hsummary => ?_, s', hs', hid', hdeals, fun terms' r' hrun' hout => ?_⟩
  · rw [hheard]
    exact run?_summary hrun hsummary
  · have hverdict : inboundVerdict (if Message.hungUp (messages (dial dialler id config now) r) then .peerHangup
        else .peerClosed) = .ok (leaves (dial dialler id config now) r) := by
      unfold leaves
      split <;> rfl
    have hreceives := run?_receives hdeals hverdict hrun' hout
    rwa [hid'] at hreceives

/-! ### One sample from end to end -/

/-- One sample is played, and nobody listens. -/
def sampleLeg : Leg Clip Unit Unit := ⟨Clip.source, ⟨[1, 2], 0⟩, Sink.discard, (), Handler.ignore, ()⟩

/-- Silence is sent for as long as the session runs. -/
def silentLeg {κ : Type} (sink : Sink κ) (k : κ) : Leg Unit κ Unit := ⟨Silence.source, (), sink, k, Handler.ignore, ()⟩

def sampleBytes : Bytes := encodeIdentity (.repeated 7) ++ [0x10, 0x00, 0x02, 1, 2] ++ encodeHangup

/-- These bytes, cut inside the identity. -/
def sampleArrivals : Inflow := [⟨1, .bytes (sampleBytes.take 10)⟩, ⟨3, .bytes (sampleBytes.drop 10)⟩, ⟨3, .eof⟩]

theorem sample_dialled : ∃ s r, (dial ⟨[], quickLine⟩ (.repeated 7) {} 0).ending = .opened s ∧
    s.run? sampleLeg shortTerms = some r ∧ r.halves.outbound.chunks = [[1, 2]] ∧
    wire (dial ⟨[], quickLine⟩ (.repeated 7) {} 0) r = sampleBytes := by
  with_unfolding_all exact ⟨_, _, rfl, rfl, rfl, rfl⟩

theorem sample_accepted : ∃ s r, (accept { origin := 0 } ⟨sampleArrivals, quickLine⟩ {} 0).ending = .opened s ∧
    s.run? (silentLeg Sink.buffer []) shortTerms = some r ∧ r.halves.ending.half = .inbound := by
  with_unfolding_all exact ⟨_, _, rfl, rfl, rfl⟩

theorem sample_received : ∃ s r s' r', (dial ⟨[], quickLine⟩ (.repeated 7) {} 0).ending = .opened s ∧
    s.run? sampleLeg shortTerms = some r ∧
    (accept { origin := 0 } ⟨sampleArrivals, quickLine⟩ {} 0).ending = .opened s' ∧ s'.identity = .repeated 7 ∧
    s'.run? (silentLeg Sink.buffer []) shortTerms = some r' ∧
    Receives Sink.buffer (.repeated 7) [[1, 2]] .peerHangup r' := by
  obtain ⟨s, r, hdial, hrun, hchunks, hwire⟩ := sample_dialled
  obtain ⟨s', r', haccept, hrun', hin⟩ := sample_accepted
  have hfront : sampleArrivals.front = wire (dial ⟨[], quickLine⟩ (.repeated 7) {} 0) r := by
    rw [hwire]
    rfl
  have hvalid : Config.Valid {} := Config.fault?_eq_none_iff.mp rfl
  have hid : encodeIdentity (.repeated 7) <+: (Connection.mk sampleArrivals quickLine).inflow.arrived
      (Clock.expiry { origin := 0 } 0 ({} : Config).bootstrapTimeout) := by
    decide +kernel
  obtain ⟨-, -, s'', haccept', hid', -, hreceives⟩ :=
    dialled_received hdial hrun (by rw [hchunks]; decide) hvalid hfront rfl hid (silentLeg Sink.buffer [])
  cases haccept.symm.trans haccept'
  have hreceives := hreceives shortTerms r' hrun' (by rw [hin]; decide)
  have hms : messages (dial ⟨[], quickLine⟩ (.repeated 7) {} 0) r = (Message.decodeAll sampleBytes).1 := by
    rw [messages, hwire]
  have haudio : Message.audio (messages (dial ⟨[], quickLine⟩ (.repeated 7) {} 0) r) = [[1, 2]] := by
    rw [hms]
    decide +kernel
  have hleaves : leaves (dial ⟨[], quickLine⟩ (.repeated 7) {} 0) r = .peerHangup := by
    rw [leaves, hms]
    decide +kernel
  rw [haudio, hleaves] at hreceives
  exact ⟨s, r, s', r', hdial, hrun, haccept, hid', hrun', hreceives⟩

/-- A sink that fails ends the session with its error, although the audio and the hangup have arrived. -/
theorem sample_refused : ∃ s r s' r', (dial ⟨[], quickLine⟩ (.repeated 7) {} 0).ending = .opened s ∧
    s.run? sampleLeg shortTerms = some r ∧ r.halves.outbound.chunks = [[1, 2]] ∧
    sampleArrivals.front = wire (dial ⟨[], quickLine⟩ (.repeated 7) {} 0) r ∧ sampleArrivals.stop? = some .peerClosed ∧
    Message.hungUp (messages (dial ⟨[], quickLine⟩ (.repeated 7) {} 0) r) = true ∧
    (accept { origin := 0 } ⟨sampleArrivals, quickLine⟩ {} 0).ending = .opened s' ∧
    s'.run? (silentLeg (Sink.channel (some 0)) []) shortTerms = some r' ∧ r'.halves.ending.half = .inbound ∧
    r'.result = .error (.sinkFailure Sink.receiverGone) := by
  obtain ⟨s, r, hdial, hrun, hchunks, hwire⟩ := sample_dialled
  obtain ⟨s', r', haccept, hrun', hin, hresult⟩ : ∃ s r,
      (accept { origin := 0 } ⟨sampleArrivals, quickLine⟩ {} 0).ending = .opened s ∧
      s.run? (silentLeg (Sink.channel (some 0)) []) shortTerms = some r ∧ r.halves.ending.half = .inbound ∧
      r.result = .error (.sinkFailure Sink.receiverGone) := by
    with_unfolding_all exact ⟨_, _, rfl, rfl, rfl, rfl⟩
  refine ⟨s, r, s', r', hdial, hrun, hchunks, ?_, rfl, ?_, haccept, hrun', hin, hresult⟩
  · rw [hwire]
    rfl
  · rw [messages, hwire]
    decide +kernel

end Session
end CallRelay
