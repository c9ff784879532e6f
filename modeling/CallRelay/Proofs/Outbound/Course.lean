import CallRelay.Proofs.Turn

/-! # The outbound half in the order of time

Bytes are accepted one after another from the start of the half on, and none behind its end. -/

namespace CallRelay
namespace Outbound
variable {σ : Type}

section Step
variable {src : Source σ} {out : Outflow} {p : Pacing} {limit : Nat} {s s' : σ} {mark mark' : Mark} {now due time : Nat}
  {turn : Turn} {phase : Phase} {ending : OutboundEnd} {lines : List (Nat × Line)}

theorem finished_timely (h : Turn.take src out p limit s mark now due = .finished turn time s' mark' lines) :
    Timely now turn.pieces ∧ (∀ q ∈ turn.pieces, q.1 ≤ time) ∧ now ≤ time ∧ time < limit := by
  have hturn := Turn.take_comesTo src out p limit s mark now due
  rw [h] at hturn
  cases hturn with
  | @chunk a b x ha hs hx =>
    have hbegan : now ≤ max (now + a.delay) (p.clock.wake due) :=
      Nat.le_trans (Nat.le_add_right now a.delay) (Nat.le_max_left _ _)
    cases hx with
    | empty hlim hc => exact ⟨.nil, nofun, hbegan, hlim⟩
    | @sent w x t hlim hc hw hx he ht =>
      have hd := send_delivers out mark w (max (now + a.delay) (p.clock.wake due))
      rw [hx] at hd
      obtain ⟨hle, hall⟩ := hd.le_ending (Or.inl he)
      exact ⟨hd.timely.mono hbegan, hall, Nat.le_trans hbegan hle, ht⟩

theorem stopped_timely (h : Turn.take src out p limit s mark now due = .stopped phase time ending lines) :
    Timely now phase.pieces ∧ (∀ q ∈ phase.pieces, q.1 ≤ time) ∧ min now limit ≤ time := by
  have hturn := Turn.take_comesTo src out p limit s mark now due
  rw [h] at hturn
  cases hturn with
  | late hlim => exact ⟨.nil, nofun, Nat.min_le_right _ _⟩
  | unanswered hlim ha => exact ⟨.nil, nofun, Nat.min_le_right _ _⟩
  | failed ha hs => exact ⟨.nil, nofun, Nat.le_trans (Nat.min_le_left _ _) (Nat.le_add_right _ _)⟩
  | exhausted ha hs => exact ⟨.nil, nofun, Nat.le_trans (Nat.min_le_left _ _) (Nat.le_add_right _ _)⟩
  | @chunk a b x ha hs hx =>
    have hbegan : now ≤ max (now + a.delay) (p.clock.wake due) :=
      Nat.le_trans (Nat.le_add_right now a.delay) (Nat.le_max_left _ _)
    cases hx with
    | late hlim => exact ⟨.nil, nofun, Nat.min_le_right _ _⟩
    | tooLong hlim hc hw => exact ⟨.nil, nofun, Nat.le_trans (Nat.min_le_left _ _) hbegan⟩
    | @broken w x t f hlim hc hw hx he ht =>
      have hd := send_delivers out mark w (max (now + a.delay) (p.clock.wake due))
      rw [hx] at hd
      obtain ⟨hle, hall⟩ := hd.le_ending (Or.inr ⟨f, he⟩)
      exact ⟨hd.timely.mono hbegan, hall, Nat.le_trans (Nat.min_le_left _ _) (Nat.le_trans hbegan hle)⟩
    | @cut w x hlim hc hw hx he =>
      have hd := send_delivers out mark w (max (now + a.delay) (p.clock.wake due))
      rw [hx] at hd
      refine ⟨(hd.timely.mono hbegan).filter _, fun q hq => ?_, Nat.min_le_right _ _⟩
      have hlt := (List.mem_filter.mp hq).2
      exact Nat.le_of_lt (of_decide_eq_true hlt)

end Step

/-- The induction carries that the half does not end before its start or its cut, whichever comes first, so that what
    a finished turn has sent comes before the end. -/
theorem run_timely (src : Source σ) (out : Outflow) (p : Pacing) (limit : Nat) (s : σ) (mark : Mark) (now due : Nat) :
    Timely now (run src out p limit s mark now due).pieces ∧
      (∀ q ∈ (run src out p limit s mark now due).pieces, q.1 ≤ (run src out p limit s mark now due).time) ∧
      min now limit ≤ (run src out p limit s mark now due).time := by
  fun_induction run src out p limit s mark now due with
  | case1 s mark now due phase time ending lines hturn => exact stopped_timely hturn
  | case2 s mark now due turn time s' mark' lines hturn ih =>
    obtain ⟨htimely, hle, hnow, hlt⟩ := finished_timely hturn
    obtain ⟨hlater, hall, hmin⟩ := ih
    generalize run src out p limit s' mark' time (due + p.cadence) = later at hlater hall hmin ⊢
    have hpieces : (prepend turn lines later).pieces = turn.pieces ++ later.pieces := by
      simp only [pieces, prepend, List.flatMap_cons, List.append_assoc]
    have htime : time ≤ later.time := by omega
    rw [hpieces]
    refine ⟨htimely.append hle hnow hlater, fun q hq => ?_, ?_⟩
    · rcases List.mem_append.mp hq with hq | hq
      · exact Nat.le_trans (hle q hq) htime
      · exact hall q hq
    · show min now limit ≤ later.time
      omega

end Outbound
end CallRelay
