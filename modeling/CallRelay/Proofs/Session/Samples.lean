import CallRelay.Proofs.Samples
import CallRelay.Proofs.Session.Completion

/-! # Whole samples on the wire

A session whose source is asked for an even number of bytes sends whole samples only, and no peer refuses its audio. The
settings do not ask for that: an odd size of frame is valid, and with it a clip of whole samples is cut inside of a
sample, and the peer ends the call with an error. -/

namespace CallRelay

/-! ### What a peer refuses -/

namespace Message

theorem decodeAll_prefix {a b : Bytes} (h : a <+: b) : (decodeAll a).1 <+: (decodeAll b).1 := by
  obtain ⟨rest, rfl⟩ := h
  rw [decodeAll_append]
  exact List.prefix_append _ _

theorem mem_audio {b : Bytes} {ms : List Message} : b ∈ audio ms ↔ ∃ m ∈ ms, m.kind = .audio ∧ m.payload = b := by
  simp [audio, and_assoc]

end Message

namespace Inflow

theorem stop?_cases {i : Inflow} {e : InboundEnd} (h : i.stop? = some e) :
    e = .peerClosed ∨ ∃ f, e = .failed (.readFailure f) := by
  induction i with
  | nil => cases h
  | cons a rest ih =>
    obtain ⟨t, what⟩ := a
    cases what with
    | bytes b => exact ih h
    | eof =>
      cases h
      exact Or.inl rfl
    | fault f =>
      cases h
      exact Or.inr ⟨f, rfl⟩

end Inflow

namespace Inbound

theorem oddAudio_ne_lateIdentity (n : Nat) : oddAudio n ≠ lateIdentity := by
  intro h
  have htext := congrArg String.toList (RelayError.protocolError.inj h)
  simp [String.toList_append] at htext

theorem odd_of_ending? {m : Message} {n : Nat} (h : m.ending? = some (.failed (oddAudio n))) :
    m.kind = .audio ∧ ¬WholeSamples m.payload := by
  unfold Message.ending? at h
  split at h
  · cases h
  · injection h with h
    injection h with h
    exact absurd h.symm (oddAudio_ne_lateIdentity n)
  · next hk =>
    split at h
    · cases h
    · next hodd => exact ⟨hk, hodd⟩
  · cases h

/-- A half that is ended by audio that is not whole samples has read such a message. -/
theorem odd_of_run {κ η : Type} {sink : Sink κ} {handler : Handler η} {r : Reader} {k : κ} {h : η} {now t n : Nat}
    (hend : (run sink handler r k h now).ending = some (t, .failed (oddAudio n))) :
    ∃ m ∈ (Message.decodeAll (r.buffer ++ r.inflow.front)).1, m.kind = .audio ∧ ¬WholeSamples m.payload := by
  cases run_deals sink handler r k h now with
  | all k' h' hdue htakes hstop =>
    rw [hend, Option.map_some, endOf] at hstop
    rcases Option.or_eq_some_iff.mp hstop.symm with hfound | ⟨-, hstop⟩
    · obtain ⟨m, hm, hodd⟩ := List.exists_of_findSome?_eq_some hfound
      exact ⟨m, hm, odd_of_ending? hodd⟩
    · rcases Inflow.stop?_cases hstop with hclosed | ⟨f, hfault⟩
      · cases hclosed
      · injection hfault with hfault
        cases hfault
  | refused before t' b k' h' p f hacts hdue htakes hw hf hstop =>
    rw [hend] at hstop
    injection hstop with hstop
    injection hstop with _ hstop
    injection hstop with hstop
    cases hstop
  | waits before t' d k' h' hacts hdue htakes hhangs hstop =>
    rw [hend] at hstop
    cases hstop

end Inbound

/-! ### What a session sends -/

theorem Source.Yields.supplied {σ : Type} {src : Source σ} {room last : Nat} {s s' : σ} {ys : List (Nat × Bytes)}
    {asked : Option Nat} {Q : Supply → Prop} (hs : src.Supplies room s Q) (h : src.Yields room last s' ys asked)
    (hr : src.Reaches room s s') : ∀ y ∈ ys, Q (.chunk y.2) := by
  induction h with
  | nil => exact fun y hy => absurd hy List.not_mem_nil
  | silent => exact fun y hy => absurd hy List.not_mem_nil
  | @chunk s' t a b ys asked ha hb later ih =>
    refine List.forall_mem_cons.mpr ⟨?_, ih (hr.answered ha)⟩
    exact hb ▸ hs s' hr t a ha

namespace Session

/-- All audio messages on the wire are whole samples, and none of them is empty. No reader refuses one, wherever between two
    messages it starts on the wire, and whether or not it gets to the end. -/
structure Welcome (o : Opening) (r : Report) : Prop where
  whole : ∀ b ∈ Message.audio (messages o r), b ≠ [] ∧ WholeSamples b
  taken : ∀ {κ η : Type} (sink : Sink κ) (handler : Handler η) (peer : Reader) (k : κ) (h : η) (now : Nat),
    (∃ (before : List Message) (behind : Bytes),
      wire o r = before.flatMap Message.encode ++ (peer.buffer ++ peer.inflow.front) ++ behind) →
    ∀ t n, (Inbound.run sink handler peer k h now).ending ≠ some (t, .failed (Inbound.oddAudio n))

section Run
variable {σ κ η : Type} {s : Session} {leg : Leg σ κ η} {terms : Terms} {r : Report} {o : Opening}

theorem sent_aligned (o : Opening) (h : s.run? leg terms = some r)
    (hs : leg.source.Supplies s.config.frameSize leg.voice Supply.Aligned) :
    ∀ b ∈ r.halves.outbound.sent, b ≠ [] ∧ WholeSamples b := by
  intro b hb
  have hspeaks := run?_speaks h o
  obtain ⟨hmem, hne⟩ := List.mem_filter.mp (hspeaks.sent.subset hb)
  obtain ⟨y, hy, rfl⟩ := List.mem_map.mp hmem
  exact ⟨of_decide_eq_true hne, hspeaks.yields.supplied hs .start y hy⟩

theorem welcome_of_aligned (ho : Opens s o) (h : s.run? leg terms = some r)
    (hs : leg.source.Supplies s.config.frameSize leg.voice Supply.Aligned) : Welcome o r := by
  have hwhole : ∀ b ∈ Message.audio (messages o r), b ≠ [] ∧ WholeSamples b := by
    rw [ho.audio h]
    exact sent_aligned o h hs
  refine ⟨hwhole, ?_⟩
  rintro κ' η' sink handler peer k h' now ⟨before, behind, hbytes⟩ t n hend
  obtain ⟨m, hm, haudio, hodd⟩ := Inbound.odd_of_run hend
  -- What the reader reads as a message is one on the wire.
  have hmem : m ∈ messages o r := by
    rw [messages, hbytes, List.append_assoc, Message.decodeAll_encodes_append]
    exact List.mem_append_right _ ((Message.decodeAll_prefix (List.prefix_append _ _)).subset hm)
  exact hodd (hwhole _ (Message.mem_audio.mpr ⟨m, hmem, haudio, rfl⟩)).2

end Run

/-- Under valid settings a clip, a feed and a host channel are handed out in whole samples exactly if the size of frames is
    even, and silence if it is more than one. In a session over such a source no audio message is refused for its length. -/
theorem whole_samples_sent {config : Config} (hvalid : config.Valid) :
    ((∀ data, Clip.source.Serves config.frameSize ⟨data, 0⟩ Supply.Whole) ↔ config.frameSize % 2 = 0) ∧
    (Silence.source.Serves config.frameSize () (fun x => ∃ b, x = .chunk b ∧ b ≠ [] ∧ WholeSamples b) ↔
      2 ≤ config.frameSize) ∧
    ((∀ f : Feed, f.Whole → Feed.source.Supplies config.frameSize f Supply.Whole) ↔ config.frameSize % 2 = 0) ∧
    ((∀ v : HostVoice, v.Whole → HostVoice.source.Supplies config.frameSize v fun x => x.Whole ∨ v.Faults x) ↔
      config.frameSize % 2 = 0) ∧
    ∀ {σ κ η : Type} {s : Session} {o : Opening} (leg : Leg σ κ η) (terms : Terms) (r : Report), s.config = config →
      Opens s o → leg.source.Sound config.frameSize leg.voice → s.run? leg terms = some r → Welcome o r := by
  refine ⟨Clip.serves_whole_iff hvalid.frame_pos hvalid.frame_le, Silence.serves_whole_iff,
    Feed.supplies_whole_iff hvalid.frame_pos, HostVoice.supplies_whole_iff hvalid.frame_pos, ?_⟩
  intro σ κ η s o leg terms r hconfig ho hsound hrun
  refine welcome_of_aligned ho hrun ?_
  rw [hconfig]
  exact hsound.supplies hvalid.frame_pos

theorem narrow_welcome : ∃ s r, narrowDialled.ending = .opened s ∧ s.run? oddLeg stalledTerms = some r ∧
    Message.audio (messages narrowDialled r) = [[1, 2], [3, 4]] ∧ Welcome narrowDialled r := by
  obtain ⟨s, r, hopened, hrun, hsent⟩ : ∃ s r, narrowDialled.ending = .opened s ∧ s.run? oddLeg stalledTerms = some r ∧
      r.halves.outbound.sent = [[1, 2], [3, 4]] := by
    with_unfolding_all exact ⟨_, _, rfl, rfl, rfl⟩
  have hopens : Opens s narrowDialled := .dialled _ _ _ _ hopened
  have hvalid : Config.Valid { frameSize := 2 } := Config.fault?_eq_none_iff.mp rfl
  obtain ⟨-, -, -, -, hwelcome⟩ := whole_samples_sent hvalid
  refine ⟨s, r, hopened, hrun, hsent ▸ hopens.audio hrun, ?_⟩
  exact hwelcome oddLeg stalledTerms r (dial_config hopened) hopens (.clip _ rfl) hrun

/-! ### An odd size of frame -/

def oddDialled : Opening := dial ⟨[], quickLine⟩ (.repeated 7) { frameSize := 3 } 0

def oddBytes : Bytes := encodeIdentity (.repeated 7) ++ [0x10, 0x00, 0x03, 1, 2, 3, 0x10, 0x00, 0x01, 4] ++ encodeHangup

/-- The first sample and a half of the second one go out in one message, and the peer ends the call there. -/
theorem odd_frame_refused : Config.Valid { frameSize := 3 } ∧ ∃ s r s' r',
    oddDialled.ending = .opened s ∧ s.run? pairLeg stalledTerms = some r ∧ r.halves.outbound.sent = [[1, 2, 3], [4]] ∧
    wire oddDialled r = oddBytes ∧
    (accept { origin := 0 } ⟨[⟨0, .bytes oddBytes⟩, ⟨0, .eof⟩], quickLine⟩ {} 0).ending = .opened s' ∧
    s'.run? (silentLeg Sink.discard ()) stalledTerms = some r' ∧ r'.result = .error (Inbound.oddAudio 3) := by
  refine ⟨Config.fault?_eq_none_iff.mp rfl, ?_⟩
  with_unfolding_all exact ⟨_, _, _, _, rfl, rfl, rfl, rfl, rfl, rfl, rfl⟩

end Session
end CallRelay
