import CallRelay.Proofs.Outbound.Course
import CallRelay.Proofs.Outbound.Schedule

/-! # Where the outbound half stands at its end

The half goes on as long as its source answers with chunks. What its source says next, behind all these answers, decides
how it ends, unless it is cut or fails over a chunk that is not sent yet. -/

namespace CallRelay
variable {σ : Type}

/-- What is answered first leaves the source as it is for the answers behind. -/
theorem Source.Answers.split {src : Source σ} {room : Nat} {s s' : σ} {l l' : List (Nat × Nat × Bytes)}
    (h : src.Answers room s (l ++ l') s') : ∃ m, src.Answers room s l m ∧ src.Answers room m l' s' := by
  induction l generalizing s with
  | nil => exact ⟨s, .nil s, h⟩
  | cons x l ih =>
    cases h with
    | cons ha hs later =>
      obtain ⟨m, hfront, hback⟩ := ih later
      exact ⟨m, .cons ha hs hfront, hback⟩

namespace Outbound

/-- Where the half stands at its end, and how it ends there. It was to start at `start`, and `s` is the source behind all
    its answers. -/
inductive Stands (src : Source σ) (room limit start : Nat) (s : σ) (o : Outbound) : Prop
  | idle (hlimit : limit ≤ start) (hphase : o.phase = .idle) (hending : o.ending = .cut)
  | unanswered {t : Nat} (hphase : o.phase = .asking t) (hending : o.ending = .cut) (ht : t < limit)
      (hlate : ∀ a, src.next s room t = some a → limit ≤ t + a.delay)
  | failed {t : Nat} {a : Supplied σ} {f : Fault} (hphase : o.phase = .asking t)
      (hending : o.ending = .failed (.sourceFailure f))
      (ha : src.next s room t = some a) (hs : a.supply = .failed f) (htime : o.time = t + a.delay)
  | exhausted {t : Nat} {a : Supplied σ} (hphase : o.phase = .asking t) (hending : o.ending = .exhausted)
      (ha : src.next s room t = some a) (hs : a.supply = .done) (htime : o.time = t + a.delay)
  /-- A chunk is left that is not sent, or not as a whole. -/
  | held (hphase : o.phase.held ≠ []) (hending : o.ending ≠ .exhausted)

section Step
variable {src : Source σ} {out : Outflow} {p : Pacing} {limit room : Nat} {s s' : σ} {mark mark' : Mark}
  {now due time : Nat}
  {turn : Turn} {phase : Phase} {ending : OutboundEnd} {lines : List (Nat × Line)}

theorem stopped_stands (h : Turn.take src out p limit s mark now due = .stopped phase time ending lines) :
    ∃ s', src.Answers p.frameSize s phase.answer?.toList s' ∧
      Stands src p.frameSize limit now s' ⟨[], phase, time, ending, lines⟩ := by
  have hturn := Turn.take_comesTo src out p limit s mark now due
  rw [h] at hturn
  cases hturn with
  | late hlim => exact ⟨s, .nil s, .idle hlim rfl rfl⟩
  | unanswered hlim ha => exact ⟨s, .nil s, .unanswered rfl rfl hlim ha⟩
  | failed ha hs => exact ⟨s, .nil s, .failed rfl rfl ha.next hs rfl⟩
  | exhausted ha hs => exact ⟨s, .nil s, .exhausted rfl rfl ha.next hs rfl⟩
  | @chunk a b x ha hs hx =>
    have hanswers : src.Answers p.frameSize s [(now, now + a.delay, b)] a.source := .cons ha.next hs (.nil _)
    cases hx <;> exact ⟨a.source, hanswers, .held (List.cons_ne_nil _ _) nofun⟩

theorem Stands.prepend {o : Outbound} (h : Stands src room limit time s o) (hlt : time < limit) (start : Nat) :
    Stands src room limit start s (prepend turn lines o) := by
  cases h with
  | idle hlimit => exact absurd hlimit (Nat.not_le_of_lt hlt)
  | unanswered hphase hending ht hlate => exact .unanswered hphase hending ht hlate
  | failed hphase hending ha hs htime => exact .failed hphase hending ha hs htime
  | exhausted hphase hending ha hs htime => exact .exhausted hphase hending ha hs htime
  | held hphase hending => exact .held hphase hending

end Step

section Run
variable (src : Source σ) (out : Outflow) (p : Pacing) (limit : Nat) (s : σ) (mark : Mark) (now due : Nat)

theorem run_stands : ∃ s', src.Answers p.frameSize s (run src out p limit s mark now due).answers s' ∧
    Stands src p.frameSize limit now s' (run src out p limit s mark now due) := by
  fun_induction run src out p limit s mark now due with
  | case1 s mark now due phase time ending lines hturn => exact stopped_stands hturn
  | case2 s mark now due turn time s' mark' lines hturn ih =>
    have hfinishes := take_finishes hturn
    obtain ⟨a, hnext, hs, rfl, hanswered⟩ := hfinishes.answered
    obtain ⟨s'', hanswers, hstands⟩ := ih
    refine ⟨s'', ?_, hstands.prepend hfinishes.time_lt now⟩
    show src.Answers p.frameSize s ((turn.asked, turn.answered, turn.chunk) :: _) s''
    rw [hfinishes.asked, hanswered]
    exact .cons hnext hs hanswers

theorem run_answers_timely : Timely now (run src out p limit s mark now due).answers := by
  fun_induction run src out p limit s mark now due with
  | case1 s mark now due phase time ending lines hturn =>
    have hcomes := Turn.take_comesTo src out p limit s mark now due
    rw [hturn] at hcomes
    cases hcomes with
    | late | unanswered | failed | exhausted => exact .nil
    | chunk ha hs hx => cases hx <;> exact .cons (Nat.le_refl now) .nil
  | case2 s mark now due turn time s' mark' lines hturn ih =>
    obtain ⟨-, -, hnow, -⟩ := finished_timely hturn
    show Timely now ((turn.asked, turn.answered, turn.chunk) :: _)
    rw [(take_finishes hturn).asked]
    exact .cons (Nat.le_refl now) (ih.mono hnow)

end Run
end Outbound
end CallRelay
