import CallRelay.Proofs.Outbound
import CallRelay.Proofs.Session.Ending
import CallRelay.Source.Clip

/-! # The bytes of a session

A dialled session begins with its identity, and an accepted one with nothing. Then come whole audio messages,
those of the first chunks of the source, and at the end there may be a part of the next one or of a
hangup. No hangup follows a part of another message. -/

namespace CallRelay

/-! ### The hangup -/

theorem Effort.hangup_bytes (clock : Clock) (out : Outflow) (mark : Mark) (now limit : Nat) (tag : Label) :
    Transfer.bytesOf (Effort.hangup clock out mark now limit tag).pieces <+: encodeHangup := by
  have hd := send_delivers out mark encodeHangup now
  have hlate := hd.before_bytes (clock.expiry now limit + 1)
  unfold hangup
  simp only
  split
  · next t he =>
    split
    · have hall := hd.bytesOf_of_done he
      simp only [hall]
      exact List.prefix_rfl
    · exact hlate
  · next t f he =>
    split
    · exact (hd.isCut_of_not_done fun t' he' => by cases he.symm.trans he').1
    · exact hlate
  · exact hlate

namespace Session

/-- The outbound half has ended the session: its source had no more audio, or the session had to stop. -/
def Halves.Normal (h : Halves) : Prop :=
  h.ending.half = .outbound ∧ (h.outbound.ending = .exhausted ∧ h.ending.verdict = .ok .completed ∨
    h.outbound.ending = .cut ∧ (h.ending.verdict = .ok .deadlineElapsed ∨ h.ending.verdict = .ok .cancelled))

theorem drains_eq_true {h : Halves} (hd : h.drains = true) : h.ending.half = .outbound ∧ ∃ d, h.ending.verdict = .ok d := by
  unfold Halves.drains at hd
  split at hd
  · next d hhalf hverdict => exact ⟨hhalf, d, hverdict⟩
  · cases hd

/-- A hangup is sent only behind whole messages, after the outbound half has ended the session. -/
theorem hangUp_bytes (s : Session) (clock : Clock) (h : Halves) :
    Transfer.bytesOf (hangUp s clock h).pieces <+: encodeHangup ∧
      (Transfer.bytesOf (hangUp s clock h).pieces ≠ [] → h.drains = true ∧ h.outbound.phase.pieces = []) := by
  unfold hangUp
  simp only
  split
  · next hd =>
    split
    · next hal => exact ⟨Effort.hangup_bytes _ _ _ _ _ _, fun _ => ⟨hd, List.isEmpty_iff.mp hal⟩⟩
    · exact ⟨List.nil_prefix, fun hne => absurd rfl hne⟩
  · exact ⟨List.nil_prefix, fun hne => absurd rfl hne⟩

section Relay
variable {σ κ η : Type} {s : Session} {leg : Leg σ κ η} {clock : Clock} {first : Half} {stopAt due : Nat} {stop : Stop}

theorem relay_normal (hd : (s.relay leg clock first stopAt due stop.reason).drains = true) :
    (s.relay leg clock first stopAt due stop.reason).Normal := by
  obtain ⟨hhalf, d, hverdict⟩ := drains_eq_true hd
  have hends : Ends first stopAt stop.reason (s.relay leg clock first stopAt due stop.reason).outbound
      (s.inbound leg).ending (s.relay leg clock first stopAt due stop.reason).ending := relay_ends
  unfold Halves.Normal
  generalize (s.relay leg clock first stopAt due stop.reason).ending = ended at hhalf hverdict hends ⊢
  cases hends with
  | exhausted ho => exact ⟨rfl, Or.inl ⟨ho, rfl⟩⟩
  | failed e ho => cases hverdict
  | stopped ho hi =>
    refine ⟨rfl, Or.inr ⟨ho, ?_⟩⟩
    rcases reason_cases stop with hr | hr
    · exact Or.inr (congrArg Except.ok hr)
    · exact Or.inl (congrArg Except.ok hr)
  | inbound => cases hhalf

end Relay

/-! ### The whole session -/

/-- The bytes that the connection accepts while a session is opened and run. -/
def wire (o : Opening) (r : Report) : Bytes := Transfer.bytesOf o.pieces ++ r.writes.flatMap Written.bytes

/-- The wire of a session that begins with `front`. The chunks sent are the first of those that the source
    yields in the run and that are not empty. -/
structure Speaks {σ : Type} (src : Source σ) (room : Nat) (voice : σ) (front : Bytes) (o : Opening) (r : Report) :
    Prop where
  yields : src.Yields room r.halves.outbound.time voice r.halves.outbound.yielded r.halves.outbound.phase.asked?
  sent : r.halves.outbound.sent <+: r.halves.outbound.chunks
  wire : ∃ frames rest, r.halves.outbound.sent.mapM encodeAudio = .ok frames ∧ wire o r = front ++ frames.flatten ++ rest ∧
    ((∃ c w, r.halves.outbound.chunks[r.halves.outbound.sent.length]? = some c ∧ encodeAudio c = .ok w ∧ IsCut rest w) ∨
      rest <+: encodeHangup ∧ (rest ≠ [] → r.halves.Normal))

theorem bytes_writtenIn (state : Option SessionState) (pieces : List (Nat × Bytes)) :
    (writtenIn state pieces).flatMap Written.bytes = Transfer.bytesOf pieces := by
  induction pieces with
  | nil => rfl
  | cons p ps ih => exact congrArg (p.2 ++ ·) ih

theorem run?_speaks {σ κ η : Type} {s : Session} {leg : Leg σ κ η} {terms : Terms} {r : Report}
    (h : s.run? leg terms = some r) (o : Opening) :
    Speaks leg.source s.config.frameSize leg.voice (Transfer.bytesOf o.pieces) o r := by
  obtain ⟨stop, hhalves, hwrites, -⟩ := run?_eq_some h
  have hnormal : r.halves.drains = true → r.halves.Normal := by
    rw [hhalves]
    exact relay_normal
  obtain ⟨p, hroom, -, -, hout⟩ := relay_outbound s leg terms.clock terms.first (stop.instant s.opened)
    (s.opened + s.config.cadence) stop.reason
  rw [← hhalves] at hout
  have hyields : leg.source.Yields s.config.frameSize r.halves.outbound.time leg.voice r.halves.outbound.yielded
      r.halves.outbound.phase.asked? := by
    rw [hout, ← hroom]
    exact Outbound.run_yields leg.source s.outflow p _ leg.voice s.mark s.opened _
  have hframed : r.halves.outbound.Framed := by
    rw [hout]
    exact Outbound.run_framed leg.source s.outflow p _ leg.voice s.mark s.opened _
  refine ⟨hyields, ?_, ?_⟩
  · rw [Outbound.chunks_eq]
    exact List.prefix_append _ _
  obtain ⟨frames, hframes, hpieces, hpart⟩ := hframed
  obtain ⟨hhangup, hbehind⟩ := hangUp_bytes s terms.clock r.halves
  have hbytes : wire o r = Transfer.bytesOf o.pieces ++ frames.flatten ++
      (Transfer.bytesOf r.halves.outbound.phase.pieces ++ Transfer.bytesOf (hangUp s terms.clock r.halves).pieces) := by
    rw [wire, hwrites, close, List.flatMap_append, bytes_writtenIn, bytes_writtenIn, hpieces]
    simp only [List.append_assoc]
  refine ⟨frames, _, hframes, hbytes, ?_⟩
  by_cases hal : r.halves.outbound.phase.pieces = []
  · rw [hal]
    exact Or.inr ⟨hhangup, fun hne => hnormal (hbehind hne).1⟩
  · -- Behind a part of a message there is no hangup.
    have hnone : Transfer.bytesOf (hangUp s terms.clock r.halves).pieces = [] :=
      Decidable.not_not.mp fun hne => hal (hbehind hne).2
    rw [hnone, List.append_nil]
    exact Or.inl (hpart.resolve_left hal)

theorem dial_pieces (conn : Connection) (id : Identity) (config : Config) (now : Nat) :
    (∃ s, (dial conn id config now).ending = .opened s ∧
        Transfer.bytesOf (dial conn id config now).pieces = encodeIdentity id) ∨
      (∀ s, (dial conn id config now).ending ≠ .opened s) ∧
        IsCut (Transfer.bytesOf (dial conn id config now).pieces) (encodeIdentity id) := by
  have hd := send_delivers conn.outflow {} (encodeIdentity id) now
  unfold dial
  generalize conn.outflow.send {} (encodeIdentity id) now = sent at hd
  split
  · exact Or.inr ⟨fun s hs => (nomatch hs), isCut_nil (List.cons_ne_nil _ _)⟩
  · simp only
    split
    · next t he => exact Or.inl ⟨_, rfl, hd.bytesOf_of_done he⟩
    · next t f he => exact Or.inr ⟨fun s hs => (nomatch hs), hd.isCut_of_not_done fun t' he' => by cases he.symm.trans he'⟩
    · next he => exact Or.inr ⟨fun s hs => (nomatch hs), hd.isCut_of_not_done fun t' he' => by cases he.symm.trans he'⟩

theorem dial_config {conn : Connection} {id : Identity} {config : Config} {now : Nat} {s : Session}
    (h : (dial conn id config now).ending = .opened s) : s.config = config := by
  unfold dial at h
  split at h
  · cases h
  · simp only at h
    split at h <;> cases h
    rfl

theorem accept_config {clock : Clock} {conn : Connection} {config : Config} {now : Nat} {s : Session}
    (h : (accept clock conn config now).ending = .opened s) : s.config = config := by
  unfold accept at h
  split at h
  · cases h
  · simp only at h
    split at h <;> cases h
    rfl

theorem accept_pieces (clock : Clock) (conn : Connection) (config : Config) (now : Nat) :
    (accept clock conn config now).pieces = [] := by
  unfold accept
  split
  · rfl
  · simp only
    split <;> rfl

theorem dial_speaks {σ κ η : Type} {conn : Connection} {id : Identity} {config : Config} {now : Nat} {s : Session}
    {leg : Leg σ κ η} {terms : Terms} {r : Report} (hs : (dial conn id config now).ending = .opened s)
    (hr : s.run? leg terms = some r) :
    Speaks leg.source config.frameSize leg.voice (encodeIdentity id) (dial conn id config now) r := by
  have hspeaks := run?_speaks hr (dial conn id config now)
  rcases dial_pieces conn id config now with ⟨s', -, hbytes⟩ | ⟨hnone, -⟩
  · rwa [hbytes, dial_config hs] at hspeaks
  · exact absurd hs (hnone s)

/-- Whatever the source, the connection, the peer and the clock do, all that is ever accepted is the identity
    and then whole audio messages of the first chunks and a beginning of one more message. -/
theorem wire_grammar {σ κ η : Type} (conn : Connection) (config : Config) (now : Nat) (leg : Leg σ κ η) (terms : Terms) :
    (∀ id, ((∀ s, (dial conn id config now).ending ≠ .opened s) ∧
        IsCut (Transfer.bytesOf (dial conn id config now).pieces) (encodeIdentity id)) ∨
      ∃ s, (dial conn id config now).ending = .opened s ∧ ∀ r, s.run? leg terms = some r →
        Speaks leg.source config.frameSize leg.voice (encodeIdentity id) (dial conn id config now) r) ∧
    (∀ clock, (accept clock conn config now).pieces = [] ∧
      ∀ s, (accept clock conn config now).ending = .opened s → ∀ r, s.run? leg terms = some r →
        Speaks leg.source config.frameSize leg.voice [] (accept clock conn config now) r) := by
  constructor
  · intro id
    rcases dial_pieces conn id config now with ⟨s, hs, -⟩ | hrefused
    · exact Or.inr ⟨s, hs, fun r hr => dial_speaks hs hr⟩
    · exact Or.inl hrefused
  · intro clock
    have hnone := accept_pieces clock conn config now
    refine ⟨hnone, fun s hs r hr => ?_⟩
    have hspeaks := run?_speaks hr (accept clock conn config now)
    rwa [hnone, accept_config hs] at hspeaks

/-! ### Two samples, and one and a half -/

def quickLine : Outflow := { most := fun _ => headerLength + maxPayload }

/-- Behind the identity nine bytes are accepted and no more. -/
def choppedLine : Outflow := { quickLine with grants := some [⟨0, 28⟩] }

def shortTerms : Terms := { clock := { origin := 0 }, deadline := Span.ofMillis 100 }

/-- A clip of two samples. -/
def pairLeg : Leg Clip Unit Unit := ⟨Clip.source, ⟨[1, 2, 3, 4], 0⟩, Sink.discard, (), Handler.ignore, ()⟩

/-- A session that sends one sample in a message. -/
def pairDialled (out : Outflow) : Opening := dial ⟨[], out⟩ (.repeated 7) { frameSize := 2 } 0

/-- Two messages and the hangup, or one message and a part of the second one. -/
theorem pair_spoken :
    (∃ s r, (pairDialled quickLine).ending = .opened s ∧ s.run? pairLeg shortTerms = some r ∧
      Speaks Clip.source 2 pairLeg.voice (encodeIdentity (.repeated 7)) (pairDialled quickLine) r ∧
      wire (pairDialled quickLine) r =
        encodeIdentity (.repeated 7) ++ [0x10, 0, 2, 1, 2, 0x10, 0, 2, 3, 4] ++ encodeHangup) ∧
    ∃ s r, (pairDialled choppedLine).ending = .opened s ∧ s.run? pairLeg shortTerms = some r ∧
      Speaks Clip.source 2 pairLeg.voice (encodeIdentity (.repeated 7)) (pairDialled choppedLine) r ∧
      wire (pairDialled choppedLine) r = encodeIdentity (.repeated 7) ++ [0x10, 0, 2, 1, 2] ++ [0x10, 0, 2, 3] := by
  have hspeaks : ∀ out s r, (pairDialled out).ending = .opened s → s.run? pairLeg shortTerms = some r →
      Speaks Clip.source 2 pairLeg.voice (encodeIdentity (.repeated 7)) (pairDialled out) r := by
    intro out s r hs hr
    rcases (wire_grammar ⟨[], out⟩ { frameSize := 2 } 0 pairLeg shortTerms).1 (.repeated 7) with
      ⟨hnone, -⟩ | ⟨s', hs', hspeaks⟩
    · exact absurd hs (hnone s)
    · cases hs.symm.trans hs'
      exact hspeaks r hr
  constructor
  · obtain ⟨s, r, hs, hr, hwire⟩ : ∃ s r, (pairDialled quickLine).ending = .opened s ∧
        s.run? pairLeg shortTerms = some r ∧ wire (pairDialled quickLine) r =
          encodeIdentity (.repeated 7) ++ [0x10, 0, 2, 1, 2, 0x10, 0, 2, 3, 4] ++ encodeHangup := by
      with_unfolding_all exact ⟨_, _, rfl, rfl, rfl⟩
    exact ⟨s, r, hs, hr, hspeaks quickLine s r hs hr, hwire⟩
  · obtain ⟨s, r, hs, hr, hwire⟩ : ∃ s r, (pairDialled choppedLine).ending = .opened s ∧
        s.run? pairLeg shortTerms = some r ∧ wire (pairDialled choppedLine) r =
          encodeIdentity (.repeated 7) ++ [0x10, 0, 2, 1, 2] ++ [0x10, 0, 2, 3] := by
      with_unfolding_all exact ⟨_, _, rfl, rfl, rfl⟩
    exact ⟨s, r, hs, hr, hspeaks choppedLine s r hs hr, hwire⟩

end Session
end CallRelay
