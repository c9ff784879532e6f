import CallRelay.Proofs.Playing
import CallRelay.Proofs.Session.Accepting

/-! # The counters of a summary

A summary counts the audio messages that went out as a whole, however the last one was cut short, and those that were
handed to the sink. Every write of the sink is finished then but for the last, and that one only if the outbound half
has ended the session over it. -/

namespace CallRelay

namespace Session

/-- The instant before which the inbound half is seen to act, if the outbound half ends the session at `t`. -/
def seenFor (first : Half) (t : Nat) : Nat := match first with | .outbound => t | .inbound => t + 1

theorem seenFor_le {first : Half} {t u : Nat} (h : t < cutFor first u) : seenFor first t ≤ u := by
  cases first with
  | outbound => exact Nat.le_of_lt_succ h
  | inbound => exact h

theorem le_seenFor (first : Half) (t : Nat) : t ≤ seenFor first t := by
  cases first with
  | outbound => exact Nat.le_refl t
  | inbound => exact Nat.le_succ t

section Run
variable {σ κ η : Type} {s : Session} {leg : Leg σ κ η} {terms : Terms} {r : Report}

theorem relay_cut_short {clock : Clock} {first : Half} {stop due : Nat} {reason : Disposition}
    (hout : (s.relay leg clock first stop due reason).ending.half = .outbound) :
    (s.relay leg clock first stop due reason).inbound = (s.inbound leg).acts.filter
      (·.1 < seenFor first (s.relay leg clock first stop due reason).ending.time) := by
  unfold relay at hout ⊢
  simp only at hout ⊢
  rw [hout]
  cases first <;> rfl

/-- An inbound half that is cut short has done what it does before that instant, and has not ended by itself by then. -/
theorem run?_cut_short (h : s.run? leg terms = some r) (hout : r.halves.ending.half = .outbound) :
    r.halves.inbound = (s.inbound leg).acts.filter (·.1 < seenFor terms.first r.halves.ending.time) ∧
      ∀ t e, (s.inbound leg).ending = some (t, e) → seenFor terms.first r.halves.ending.time ≤ t := by
  constructor
  · rw [(run?_relays h).1] at hout ⊢
    exact relay_cut_short hout
  · intro t e hi
    refine seenFor_le ?_
    have hends := run?_ends h
    have hself : r.halves.outbound.ending ≠ .cut → r.halves.outbound.time < cutFor terms.first t := fun hne =>
      Nat.lt_of_lt_of_le (run?_time_lt_cut h hne) (cut_le_cutFor terms hi)
    generalize r.halves.ending = ended at hout hends ⊢
    cases hends with
    | exhausted ho => exact hself (ho ▸ nofun)
    | failed e ho => exact hself (ho ▸ nofun)
    | stopped ho hstop => exact hstop t e hi
    | inbound => cases hout

theorem run?_plays (h : s.run? leg terms = some r) :
    ∃ behind ending, Inbound.Plays leg.sink s.opened leg.ear (r.halves.inbound ++ behind) ending := by
  have hfront : r.halves.inbound <+: (s.inbound leg).acts := by
    rw [(run?_relays h).1]
    exact relay_inbound_front s leg _ _ _ _ _
  obtain ⟨behind, hbehind⟩ := hfront
  refine ⟨behind, (s.inbound leg).ending, ?_⟩
  rw [hbehind]
  exact Inbound.run_plays _ _ _ _ _ _

/-- In a run without an error no write of the sink has failed, and only one that the outbound half has ended the session
    over is not finished. -/
theorem run?_writesOf {summary : Summary} (h : s.run? leg terms = some r) (hok : r.result = .ok summary) :
    Inbound.AllTaken leg.sink leg.ear r.halves.inbound ∨
      r.halves.ending.half = .outbound ∧ Inbound.LastPending leg.sink leg.ear r.halves.ending.time r.halves.inbound := by
  have hplays := Inbound.run_plays leg.sink leg.handler s.reader leg.ear leg.watch s.opened
  cases hhalf : r.halves.ending.half with
  | outbound =>
    obtain ⟨hacts, hend⟩ := run?_cut_short h hhalf
    rw [hacts]
    exact (hplays.cut_short hend).imp_right fun hpending => ⟨rfl, hpending.mono (le_seenFor _ _)⟩
  | inbound =>
    -- A failed write would have been the result.
    obtain ⟨hacts, t, e, hi, -, hresult⟩ := run?_inbound h hhalf
    have he : ∀ f, e ≠ .failed (.sinkFailure f) := by
      rintro f rfl
      rw [hresult] at hok
      cases hok
    rw [hacts]
    exact Or.inl (hplays.allTaken hi he)

end Run

/-- What the summary of a run tells of it. -/
structure Tells {σ κ η : Type} (o : Opening) (s : Session) (leg : Leg σ κ η) (r : Report) (summary : Summary) : Prop where
  /-- The audio messages that can be read on the other end. -/
  sent : summary.sent.frames = (Message.audio (messages o r)).length ∧
    summary.sent.bytes = total ((Message.audio (messages o r)).map List.length)
  received : summary.received.frames = (Inbound.handsOf r.halves.inbound).length ∧
    summary.received.bytes = total ((Inbound.handsOf r.halves.inbound).map fun h => h.2.length)
  /-- What is handed over are audio messages, and the sink is called with them. -/
  plays : ∃ behind ending, Inbound.Plays leg.sink s.opened leg.ear (r.halves.inbound ++ behind) ending
  writes : Inbound.AllTaken leg.sink leg.ear r.halves.inbound ∧
      (Inbound.writesOf r.halves.inbound).length = summary.received.frames ∨
    r.halves.ending.half = .outbound ∧ Inbound.LastPending leg.sink leg.ear r.halves.ending.time r.halves.inbound ∧
      (Inbound.writesOf r.halves.inbound).length + 1 = summary.received.frames

section Run
variable {σ κ η : Type} {s : Session} {leg : Leg σ κ η} {terms : Terms} {r : Report} {o : Opening} {summary : Summary}

theorem Speaks.audio {src : Source σ} {room : Nat} {voice : σ} {front : List Message}
    (h : Speaks src room voice (front.flatMap Message.encode) o r) (hfront : ∀ m ∈ front, m.kind ≠ .audio) :
    Message.audio (Session.messages o r) = r.halves.outbound.sent := by
  obtain ⟨ms, tail, hms, hsent, haudio, htail⟩ := h.messages_behind
  have hskip : front.filter (·.kind = .audio) = [] := List.filter_eq_nil_iff.mpr fun m hm => by simpa using hfront m hm
  rw [Session.messages, hms, Message.audio, List.filter_append, hskip, List.nil_append, ← hsent]
  exact Message.audio_append_tail haudio htail

theorem run?_tells (h : s.run? leg terms = some r) (hok : r.result = .ok summary)
    (haudio : Message.audio (messages o r) = r.halves.outbound.sent) :
    summary.identity = s.identity ∧ Tells o s leg r summary := by
  have hhanded := Inbound.handedOf_eq r.halves.inbound
  obtain ⟨d, -, rfl⟩ := run?_ok h hok
  have hframes : r.halves.received.frames = (Inbound.handsOf r.halves.inbound).length := by
    rw [Halves.received, Traffic.of, hhanded, List.length_map]
  refine ⟨rfl, ⟨?_, ?_⟩, ⟨hframes, ?_⟩, run?_plays h, ?_⟩
  · rw [haudio]
    rfl
  · rw [haudio]
    rfl
  · simp only [Halves.received, Traffic.of, hhanded, List.map_map]
    rfl
  · rcases run?_writesOf h hok with htaken | ⟨hhalf, hpending⟩
    · exact Or.inl ⟨htaken, htaken.length_eq.trans hframes.symm⟩
    · exact Or.inr ⟨hhalf, hpending, hpending.length_eq.trans hframes.symm⟩

end Run

theorem dial_identity {conn : Connection} {id : Identity} {config : Config} {now : Nat} {s : Session}
    (h : (dial conn id config now).ending = .opened s) : s.identity = id := by
  unfold dial at h
  split at h
  · cases h
  · simp only at h
    split at h <;> cases h
    rfl

/-- Whatever ends a run without an error, its summary tells of it: of the identity that was dialled or came first, of
    the audio messages that went out as a whole, and of those that the sink was called with. -/
theorem counters_tell {σ κ η : Type} (conn : Connection) (config : Config) (now : Nat) (leg : Leg σ κ η) (terms : Terms) :
    (∀ id s r summary, (dial conn id config now).ending = .opened s → s.run? leg terms = some r →
      r.result = .ok summary → summary.identity = id ∧ Tells (dial conn id config now) s leg r summary) ∧
    (∀ clock s r summary, (accept clock conn config now).ending = .opened s → s.run? leg terms = some r →
      r.result = .ok summary → (∃ t m, conn.inflow.first? now [] = some (t, .message m) ∧ m.rawKind = 0x01 ∧
        m.payload = summary.identity.bytes) ∧ Tells (accept clock conn config now) s leg r summary) := by
  constructor
  · intro id s r summary hs hr hok
    have hspeaks := dial_speaks hs hr
    rw [encodeIdentity_flatMap] at hspeaks
    have haudio := hspeaks.audio (List.forall_mem_singleton.mpr (by rw [Message.announce, Message.kind_ofKind]; decide))
    obtain ⟨hid, htells⟩ := run?_tells hr hok haudio
    exact ⟨hid.trans (dial_identity hs), htells⟩
  · intro clock s r summary hs hr hok
    have hspeaks := run?_speaks hr (accept clock conn config now)
    have hnone : Transfer.bytesOf (accept clock conn config now).pieces = ([] : List Message).flatMap Message.encode := by
      rw [accept_pieces]
      rfl
    rw [hnone] at hspeaks
    have haudio := hspeaks.audio fun m hm => absurd hm List.not_mem_nil
    obtain ⟨hid, htells⟩ := run?_tells hr hok haudio
    obtain ⟨t, m, hfirst, hkind, hpayload⟩ := first?_of_opened hs
    exact ⟨⟨t, m, hfirst, hkind, hid ▸ hpayload⟩, htells⟩

/-! ### A write that is not finished -/

/-- The sink is never done with a payload. -/
def slowLeg : Leg Clip Unit Unit := { sampleLeg with sink := ⟨fun _ _ _ => none⟩ }

theorem slow_told : ∃ s r summary, (accept { origin := 0 } ⟨sampleArrivals, quickLine⟩ {} 0).ending = .opened s ∧
    s.run? slowLeg shortTerms = some r ∧ r.result = .ok summary ∧ summary.disposition = .completed ∧
    summary.received = ⟨1, 2⟩ ∧ Inbound.writesOf r.halves.inbound = [] ∧
    Inbound.LastPending slowLeg.sink slowLeg.ear r.halves.ending.time r.halves.inbound := by
  obtain ⟨s, r, summary, haccept, hrun, hok, hdisposition, hreceived, hwrites⟩ : ∃ s r summary,
      (accept { origin := 0 } ⟨sampleArrivals, quickLine⟩ {} 0).ending = .opened s ∧
      s.run? slowLeg shortTerms = some r ∧ r.result = .ok summary ∧ summary.disposition = .completed ∧
      summary.received = ⟨1, 2⟩ ∧ Inbound.writesOf r.halves.inbound = [] := by
    with_unfolding_all exact ⟨_, _, _, rfl, rfl, rfl, rfl, rfl, rfl⟩
  obtain ⟨-, htells⟩ := (counters_tell ⟨sampleArrivals, quickLine⟩ {} 0 slowLeg shortTerms).2 _ s r summary haccept hrun hok
  refine ⟨s, r, summary, haccept, hrun, hok, hdisposition, hreceived, hwrites, ?_⟩
  rcases htells.writes with ⟨-, hlength⟩ | ⟨-, hpending, -⟩
  · rw [hwrites, hreceived] at hlength
    cases hlength
  · exact hpending

end Session
end CallRelay
