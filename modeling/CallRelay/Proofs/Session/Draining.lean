import CallRelay.Proofs.Outbound.Alike
import CallRelay.Proofs.Session.Completion
import Mathlib.Data.List.Flatten

/-! # Draining a session

What a run returns is settled when a half ends it. The hangup and the shutdown behind that change nothing, whether they are
accepted, cut short, refused or never answered, and whatever limit is set to them. -/

namespace CallRelay
namespace Session

/-! ### Halves from the two sides -/

/-- The halves of a session whose sides came to `o` and `i`. -/
def Halves.of (first : Half) (stop : Nat) (reason : Disposition) (o : Outbound) (i : Inbound) : Halves :=
  let e := Session.ending first stop reason o i.ending
  ⟨o, match e.half, first with
    | .inbound, _ => i.acts
    | .outbound, .outbound => i.before e.time
    | .outbound, .inbound => i.before (e.time + 1), e⟩

section Run
variable {σ κ η : Type} {s : Session} {leg : Leg σ κ η} {terms : Terms} {r : Report}

theorem run?_halves (h : s.run? leg terms = some r) : r.halves = .of terms.first (s.stopsAt terms) (s.stop terms).reason
    (s.outboundUntil leg terms.clock (s.cut leg terms)) (s.inbound leg) :=
  (run?_relays h).1

/-! ### What settles a run -/

/-- What settles the run `r`: its result is that of its halves, and nothing but a hangup is accepted behind their end. -/
structure Settles (s : Session) (r : Report) : Prop where
  ok : ∀ summary, r.result = .ok summary ↔
    ∃ d, r.halves.ending.verdict = .ok d ∧ summary = ⟨s.identity, d, r.halves.sent, r.halves.received⟩
  error : ∀ e, r.result = .error e ↔ r.halves.ending.verdict = .error e
  audio : ∀ w ∈ r.writes, w.state ≠ some .draining → w.time ≤ r.halves.ending.time
  drained : ∀ w ∈ r.writes, w.state = some .draining → r.halves.ending.time ≤ w.time
  hangup : (r.writes.filter (·.state = some .draining)).flatMap Written.bytes <+: encodeHangup
  behind : (r.writes.filter (r.halves.ending.time < ·.time)).flatMap Written.bytes <+: encodeHangup

theorem encodeHangup_eq_replicate : encodeHangup = List.replicate 3 0 := rfl

/-- All bytes of a hangup are the same, so that leaving some out leaves its front. -/
theorem prefix_hangup_of_sublist {b c : Bytes} (h : b.Sublist c) (hc : c <+: encodeHangup) : b <+: encodeHangup := by
  obtain ⟨n, hn, rfl⟩ := List.sublist_replicate_iff.mp (encodeHangup_eq_replicate ▸ h.trans hc.sublist)
  rw [encodeHangup_eq_replicate]
  exact ⟨List.replicate (3 - n) 0, by rw [← List.replicate_add, Nat.add_sub_cancel' hn]⟩

theorem run?_ok_eq_iff (h : s.run? leg terms = some r) {summary : Summary} : r.result = .ok summary ↔
    ∃ d, r.halves.ending.verdict = .ok d ∧ summary = ⟨s.identity, d, r.halves.sent, r.halves.received⟩ := by
  refine ⟨run?_ok h, ?_⟩
  rintro ⟨d, hv, rfl⟩
  rw [(run?_relays h).2.2, Halves.result, hv]
  rfl

theorem run?_settles (h : s.run? leg terms = some r) : Settles s r := by
  obtain ⟨-, haudio, -⟩ := run?_pieces h
  have hlasts := hangUp_lasts s terms.clock r.halves
  have hbytes := (hangUp_bytes s terms.clock r.halves).1
  have hwrites := run?_writes h
  refine ⟨fun _ => run?_ok_eq_iff h, fun _ => run?_error_iff h, ?_, ?_, ?_, ?_⟩
  · intro w hw hstate
    rw [hwrites] at hw
    rcases List.mem_append.mp hw with hw | hw
    · obtain ⟨p, hp, rfl⟩ := List.mem_map.mp hw
      exact haudio p hp
    · obtain ⟨p, hp, rfl⟩ := List.mem_map.mp hw
      exact absurd rfl hstate
  · intro w hw hstate
    rw [hwrites] at hw
    rcases List.mem_append.mp hw with hw | hw
    · obtain ⟨p, hp, rfl⟩ := List.mem_map.mp hw
      cases hstate
    · obtain ⟨p, hp, rfl⟩ := List.mem_map.mp hw
      exact hlasts.timely.1 p hp
  · rw [hwrites, List.filter_append, filter_writtenIn_of_ne (by decide), filter_writtenIn_self, List.nil_append,
      bytes_writtenIn]
    exact hbytes
  · -- The audio has all been accepted by the end of the halves, so that only pieces of the hangup are left.
    have hnone : (writtenIn (some .streaming) r.halves.outbound.pieces).filter (r.halves.ending.time < ·.time) = [] := by
      refine List.filter_eq_nil_iff.mpr fun w hw hlt => ?_
      obtain ⟨p, hp, rfl⟩ := List.mem_map.mp hw
      exact Nat.not_lt_of_le (haudio p hp) (of_decide_eq_true hlt)
    rw [hwrites, List.filter_append, hnone, List.nil_append]
    refine prefix_hangup_of_sublist (List.filter_sublist.flatMap _) ?_
    rw [bytes_writtenIn]
    exact hbytes

/-! ### Two ways to drain -/

/-- The session on a connection with the write side `out`, and with another limit on draining. -/
def drainedBy (s : Session) (out : Outflow) (limit : Nat) : Session :=
  { s with
    outflow := out
    config := { s.config with drainTimeout := limit }
    valid := ⟨s.valid.frame_pos, s.valid.frame_le, s.valid.cadence_pos, s.valid.connect_pos⟩ }

/-- Up to the end of the halves of the run `r` the write side `out` takes their messages as that of the session does. -/
def TakenAlike (s : Session) (leg : Leg σ κ η) (terms : Terms) (r : Report) (out : Outflow) : Prop :=
  r.halves.outbound.TakenAlike id id (s.cut leg terms) s.outflow out s.mark

theorem run?_drainedBy (h : s.run? leg terms = some r) {out : Outflow} (limit : Nat) (hout : TakenAlike s leg terms r out) :
    ∃ r', (s.drainedBy out limit).run? leg terms = some r' ∧ r'.halves = r.halves ∧ r'.result = r.result := by
  obtain ⟨r', h'⟩ : ∃ r', (s.drainedBy out limit).run? leg terms = some r' := by
    have hclock := run?_isSome_iff.mp (Option.isSome_iff_exists.mpr ⟨r, h⟩)
    exact Option.isSome_iff_exists.mp (run?_isSome_iff.mpr hclock)
  have hsame : (s.drainedBy out limit).outboundUntil leg terms.clock (s.cut leg terms) =
      s.outboundUntil leg terms.clock (s.cut leg terms) := by
    rw [TakenAlike, run?_outboundUntil h] at hout
    exact (Outbound.run_alike leg.source _ leg.voice s.mark s.opened _ rfl hout).eq.symm
  have hhalves : r'.halves = r.halves := by
    rw [run?_halves h, run?_halves h', ← hsame]
    rfl
  refine ⟨r', h', hhalves, ?_⟩
  rw [(run?_relays h).2.2, (run?_relays h').2.2, hhalves]
  rfl

/-- However the connection takes the hangup and the shutdown, and whatever limit is set to them, a run with the same halves
    returns the same. -/
theorem draining_settled (h : s.run? leg terms = some r) : Settles s r ∧
    ∀ out limit, TakenAlike s leg terms r out → ∃ r', (s.drainedBy out limit).run? leg terms = some r' ∧
      r'.halves = r.halves ∧ r'.result = r.result ∧ Settles (s.drainedBy out limit) r' := by
  refine ⟨run?_settles h, fun out limit hout => ?_⟩
  obtain ⟨r', h', hhalves, hresult⟩ := run?_drainedBy h limit hout
  exact ⟨r', h', hhalves, hresult, run?_settles h'⟩

end Run

/-! ### A hangup that is never answered -/

def terse : Session :=
  start (.repeated 7) { frameSize := 2 } (Config.fault?_eq_none_iff.mp rfl) (.ofInflow []) narrowLine {} 0

/-- Two messages of two bytes and one byte of the hangup are accepted and no more, and the shutdown hangs. -/
def stuntedLine : Outflow := { narrowLine with grants := some [⟨0, 11⟩], shutdown := .hangs }

theorem stunted_settled :
    ∃ r r', terse.run? oddLeg stalledTerms = some r ∧ TakenAlike terse oddLeg stalledTerms r stuntedLine ∧
    (terse.drainedBy stuntedLine 7).run? oddLeg stalledTerms = some r' ∧ r'.result = r.result ∧ Completes r ∧
    r.writes.flatMap Written.bytes = r'.writes.flatMap Written.bytes ++ [0, 0] := by
  obtain ⟨r, hrun, hc, hbegun, hturns, hwrites⟩ : ∃ r, terse.run? oddLeg stalledTerms = some r ∧
      r.result.map Summary.disposition = .ok .completed ∧
      r.halves.outbound.begun =
        [⟨0, 0, [1, 2], Span.ofMillis 20, [(Span.ofMillis 20, [16, 0, 2]), (Span.ofMillis 20, [1, 2])]⟩,
          ⟨Span.ofMillis 20, Span.ofMillis 20, [3, 4], Span.ofMillis 40,
            [(Span.ofMillis 40, [16, 0, 2]), (Span.ofMillis 40, [3, 4])]⟩] ∧
      r.halves.outbound.turns = r.halves.outbound.begun ∧
      r.writes.flatMap Written.bytes = [16, 0, 2, 1, 2, 16, 0, 2, 3, 4, 0, 0, 0] := by
    with_unfolding_all exact ⟨_, rfl, rfl, rfl, rfl, rfl⟩
  obtain ⟨r', hrun', hwrites'⟩ : ∃ r', (terse.drainedBy stuntedLine 7).run? oddLeg stalledTerms = some r' ∧
      r'.writes.flatMap Written.bytes = [16, 0, 2, 1, 2, 16, 0, 2, 3, 4, 0] := by
    with_unfolding_all exact ⟨_, rfl, rfl⟩
  have htaken : TakenAlike terse oddLeg stalledTerms r stuntedLine := by
    rintro n turn w m' hn hchunk hw ⟨⟩
    -- The second message is handed over behind the five bytes of the first one.
    rw [hturns, hbegun]
    rw [hbegun] at hn
    rcases n with _ | _ | n
    · cases hn
      cases hw
      refine .of_eq _ _ _ ?_
      with_unfolding_all rfl
    · cases hn
      cases hw
      refine .of_eq _ _ _ ?_
      with_unfolding_all rfl
    · cases hn
  obtain ⟨r'', hrun'', -, hresult, -⟩ := (draining_settled hrun).2 stuntedLine 7 htaken
  cases hrun'.symm.trans hrun''
  refine ⟨r, r', hrun, htaken, hrun', hresult, completes_iff_map.mpr hc, ?_⟩
  rw [hwrites, hwrites']
  rfl

end Session
end CallRelay
