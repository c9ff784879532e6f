import CallRelay.Proofs.Outbound.Schedule
import CallRelay.Proofs.Session.Peers
import CallRelay.Source.Script

/-! # The pace of a session

The n-th turn of a session begins n cadences after the start, or when its chunk is there if that is later. A
stall delays the turns that it holds up and no others: once it is over they begin one right behind the other
until the schedule is met again, and there are never more messages on their way than cadences have passed. -/

namespace CallRelay
namespace Session

section Run
variable {σ κ η : Type} {s : Session} {leg : Leg σ κ η} {terms : Terms} {report : Report}

/-- When the n-th turn of a session begins if nothing holds it up. -/
def tick (s : Session) (clock : Clock) (n : Nat) : Nat := clock.wake (s.opened + n * s.config.cadence)

theorem le_tick (s : Session) (clock : Clock) (n : Nat) : s.opened + n * s.config.cadence ≤ s.tick clock n :=
  clock.le_wake _

theorem tick_mono (s : Session) (clock : Clock) {m n : Nat} (h : m ≤ n) : s.tick clock m ≤ s.tick clock n :=
  clock.wake_mono (Nat.add_le_add_left (Nat.mul_le_mul_right _ h) _)

theorem outboundUntil_scheduled (s : Session) (leg : Leg σ κ η) (clock : Clock) (limit : Nat) :
    (s.outboundUntil leg clock limit).Scheduled leg.source s.outflow s.config.frameSize limit s.opened
      (s.tick clock) leg.voice s.mark := by
  refine Outbound.run_scheduled leg.source s.outflow (s.pacing clock) limit leg.voice s.mark s.opened _ _ fun n => ?_
  rw [tick, Nat.succ_mul, Nat.add_comm (n * s.config.cadence), Nat.add_assoc]
  rfl

theorem run?_scheduled (h : s.run? leg terms = some report) :
    report.halves.outbound.Scheduled leg.source s.outflow s.config.frameSize (s.cut leg terms) s.opened (s.tick terms.clock)
      leg.voice s.mark := by
  rw [run?_outboundUntil h]
  exact s.outboundUntil_scheduled leg terms.clock _

/-- A half that ends by itself does so before the cut. -/
theorem run?_time_lt_cut (h : s.run? leg terms = some report) (hne : report.halves.outbound.ending ≠ .cut) :
    report.halves.outbound.time < s.cut leg terms := by
  rcases (run?_scheduled h).ends with ⟨heq, -⟩ | ⟨-, hlt⟩
  · exact absurd heq hne
  · exact hlt

/-- Whatever the source and the connection do, the source is asked at the start and whenever a turn is over, that
    is, with the last byte of its whole message, and the turns begin on schedule or with their chunks. A tick is
    taken at the very instant at which it is due if waits can end there. -/
theorem outbound_paced (h : s.run? leg terms = some report) :
    (∀ n, s.opened + n * s.config.cadence ≤ s.tick terms.clock n ∧
      (terms.clock.grain ∣ s.opened + n * s.config.cadence → s.tick terms.clock n = s.opened + n * s.config.cadence)) ∧
    report.halves.outbound.Scheduled leg.source s.outflow s.config.frameSize (s.cut leg terms) s.opened (s.tick terms.clock)
      leg.voice s.mark ∧
    (∀ turn ∈ report.halves.outbound.turns, Outbound.Whole turn) ∧
    (∀ turn, report.halves.outbound.phase = .sending turn → Outbound.Part turn) ∧
    (∀ t, (report.halves.outbound.audioBegun t).length ≤ (t - s.opened) / s.config.cadence) ∧
    ∀ i j stalled turn, i ≤ j → report.halves.outbound.begun[i]? = some stalled →
      report.halves.outbound.begun[j]? = some turn → report.halves.outbound.Prompt i j →
        turn.began = max stalled.began (s.tick terms.clock (j + 1)) := by
  have hscheduled := run?_scheduled h
  obtain ⟨p, -, -, -, hout⟩ := run?_outbound h
  refine ⟨fun n => ⟨s.le_tick _ n, Clock.wake_of_dvd _⟩, hscheduled, ?_, ?_, ?_, ?_⟩
  · rw [hout]
    exact Outbound.run_whole _ _ _ _ _ _ _ _
  · rw [hout]
    exact Outbound.run_part _ _ _ _ _ _ _ _
  · exact hscheduled.length_audioBegun_le s.valid.cadence_pos (s.le_tick _)
  · intro i j stalled turn hij hi hj hprompt
    exact hscheduled.began_of_prompt (fun m n hmn => s.tick_mono _ hmn) hij hi hj hprompt

end Run

/-! ### A source that stalls -/

/-- A session with a peer that says nothing. -/
def quiet : Session := start (.repeated 7) {} (Config.fault?_eq_none_iff.mp rfl) (.ofInflow []) quickLine {} 0

/-- The second chunk is held up past the second and the third tick. -/
def stalledLeg : Leg Script Unit Unit :=
  ⟨Script.source, [(0, .ok [1, 2]), (Span.ofMillis 70, .ok [3, 4]), (0, .ok []), (0, .ok [5, 6]), (0, .ok [7, 8])],
    Sink.discard, (), Handler.ignore, ()⟩

def stalledTerms : Terms := { shortTerms with deadline := Span.ofMillis 200 }

theorem stalled_paced : ∃ r, quiet.run? stalledLeg stalledTerms = some r ∧
    r.halves.outbound.begun.map Turn.began = [20, 70, 70, 80, 100].map Span.ofMillis ∧
    r.halves.outbound.requests = 0 :: r.halves.outbound.turns.map Turn.ended ∧
    ∀ t, (r.halves.outbound.audioBegun t).length ≤ t / Span.ofMillis 20 := by
  obtain ⟨r, hrun, hbegan⟩ : ∃ r, quiet.run? stalledLeg stalledTerms = some r ∧
      r.halves.outbound.begun.map Turn.began = [20, 70, 70, 80, 100].map Span.ofMillis := by
    with_unfolding_all exact ⟨_, rfl, rfl⟩
  obtain ⟨-, hscheduled, -, -, hcount, -⟩ := outbound_paced hrun
  have hcut : 0 < quiet.cut stalledLeg stalledTerms := by decide +kernel
  exact ⟨r, hrun, hbegan, hscheduled.requests hcut, hcount⟩

end Session
end CallRelay
