import CallRelay.Proofs.Outbound.Course
import CallRelay.Proofs.Outbound.Schedule

/-! # Cutting the outbound half

The instant at which the half is cut decides how far it goes and nothing else. Up to the earlier one of two cuts the source
is asked and bytes are accepted at the same instants, and a half that ends by itself before a cut does not notice it. -/

namespace CallRelay
variable {σ : Type}

/-- What comes before an instant comes before any later one too. -/
theorem filter_filter_lt {α : Type} {u limit : Nat} (hle : u ≤ limit) (time : α → Nat) (l : List α) :
    (l.filter fun a => decide (time a < limit)).filter (fun a => decide (time a < u)) =
      l.filter fun a => decide (time a < u) := by
  rw [List.filter_filter]
  refine List.filter_congr fun a _ => ?_
  by_cases hu : time a < u
  · have hlimit := Nat.lt_of_lt_of_le hu hle
    simp [hu, hlimit]
  · simp [hu]

theorem Transfer.before_before {u limit : Nat} (hle : u ≤ limit) (pieces : List (Nat × Bytes)) :
    before u (before limit pieces) = before u pieces :=
  filter_filter_lt hle Prod.fst pieces

namespace TurnEnd

/-- When a turn, or the half in it, has come to its end. -/
def time : TurnEnd σ → Nat
  | finished _ t _ _ _ | stopped _ t _ _ => t

def pieces : TurnEnd σ → List (Nat × Bytes)
  | finished turn _ _ _ _ => turn.pieces
  | stopped phase _ _ _ => phase.pieces

/-- When the source was asked in a turn. -/
def requests : TurnEnd σ → List Nat
  | finished turn _ _ _ _ => [turn.asked]
  | stopped phase _ _ _ => phase.request?.toList

/-- A turn that is cut at `limit`, and the same turn if it is cut later: it has come to its end before, or else it is cut
    short. -/
inductive Cut (limit : Nat) : TurnEnd σ → TurnEnd σ → Prop
  | same (x : TurnEnd σ) : Cut limit x x
  | short {phase : Phase} {lines : List (Nat × Line)} {x : TurnEnd σ} (htime : limit ≤ x.time)
      (hpieces : phase.pieces = Transfer.before limit x.pieces)
      (hrequests : phase.request?.toList = x.requests.filter (· < limit)) :
      Cut limit (.stopped phase limit .cut lines) x

end TurnEnd

namespace Turn

/-! ### One turn -/

section Step
variable {src : Source σ} {out : Outflow} {p : Pacing} {clock : Clock} {limit limit' : Nat} {s : σ} {mark : Mark}
  {turn : Turn}
  {lines : List (Nat × Line)} {now due : Nat}

theorem write_cut (hle : limit ≤ limit') (hasked : turn.asked < limit) (sent : Transfer) :
    TurnEnd.Cut limit (write limit turn sent s lines) (write limit' turn sent s lines) := by
  have hrequests : [turn.asked] = [turn.asked].filter (· < limit) := by simp [hasked]
  have hshort : TurnEnd.Cut limit (cutShort (σ := σ) limit turn sent lines) (cutShort limit' turn sent lines) :=
    .short hle (Transfer.before_before hle _).symm hrequests
  unfold write
  split
  · next t he =>
    by_cases ht : t < limit
    · rw [if_pos ht, if_pos (Nat.lt_of_lt_of_le ht hle)]
      exact .same _
    · rw [if_neg ht]
      split
      · exact .short (Nat.le_of_not_lt ht) rfl hrequests
      · exact hshort
  · next t f he =>
    by_cases ht : t < limit
    · rw [if_pos ht, if_pos (Nat.lt_of_lt_of_le ht hle)]
      exact .same _
    · rw [if_neg ht]
      split
      · exact .short (Nat.le_of_not_lt ht) rfl hrequests
      · exact hshort
  · exact hshort

/-- Nothing is accepted in a turn before its tick. -/
theorem tick_from (out : Outflow) (limit : Nat) (mark : Mark) (turn : Turn) (s : σ) (lines : List (Nat × Line))
    (hpieces : turn.pieces = []) :
    min turn.began limit ≤ (tick out limit mark turn s lines).time ∧
      Timely turn.began (tick out limit mark turn s lines).pieces ∧
      (tick out limit mark turn s lines).requests = [turn.asked] := by
  have hticks := tick_ticks out limit mark turn s lines
  generalize tick out limit mark turn s lines = x at hticks
  cases hticks with
  | late hlim => exact ⟨Nat.min_le_right _ _, .nil, rfl⟩
  | empty hlim hc =>
    refine ⟨Nat.min_le_left _ _, ?_, rfl⟩
    rw [TurnEnd.pieces, hpieces]
    exact .nil
  | tooLong hlim hc hw => exact ⟨Nat.min_le_left _ _, .nil, rfl⟩
  | @sent w x t hlim hc hw hx he ht =>
    have hd := send_delivers out mark w turn.began
    rw [hx] at hd
    exact ⟨Nat.le_trans (Nat.min_le_left _ _) (hd.le_ending (Or.inl he)).1, hd.timely, rfl⟩
  | @broken w x t f hlim hc hw hx he ht =>
    have hd := send_delivers out mark w turn.began
    rw [hx] at hd
    exact ⟨Nat.le_trans (Nat.min_le_left _ _) (hd.le_ending (Or.inr ⟨f, he⟩)).1, hd.timely, rfl⟩
  | @cut w x hlim hc hw hx he =>
    have hd := send_delivers out mark w turn.began
    rw [hx] at hd
    exact ⟨Nat.min_le_right _ _, hd.timely.filter _, rfl⟩

theorem tick_cut (hle : limit ≤ limit') (hasked : turn.asked < limit) (hpieces : turn.pieces = []) :
    TurnEnd.Cut limit (tick out limit mark turn s lines) (tick out limit' mark turn s lines) := by
  by_cases hbegan : limit ≤ turn.began
  · obtain ⟨htime, htimely, hrequests⟩ := tick_from out limit' mark turn s lines hpieces
    have hlate : tick out limit mark turn s lines =
        .stopped (.holding turn.asked turn.answered turn.chunk) limit .cut lines :=
      if_pos hbegan
    rw [hlate]
    refine .short (by omega) (htimely.before_eq_nil hbegan).symm ?_
    rw [hrequests]
    simp [Phase.request?, hasked]
  · have hbegan' : ¬limit' ≤ turn.began := by omega
    unfold tick
    rw [if_neg hbegan, if_neg hbegan']
    split
    · exact .same _
    · split
      · exact .same _
      · exact write_cut hle hasked _

/-- Nothing is accepted in a turn before the source has answered. -/
theorem answer_from (out : Outflow) (clock : Clock) (limit : Nat) (mark : Mark) (asked due : Nat) (a : Supplied σ) :
    min (asked + a.delay) limit ≤ (answer out clock limit mark asked due a).time ∧
      Timely (asked + a.delay) (answer out clock limit mark asked due a).pieces ∧
      (answer out clock limit mark asked due a).requests = [asked] := by
  unfold answer
  split
  · exact ⟨Nat.min_le_right _ _, .nil, rfl⟩
  · split
    · exact ⟨Nat.min_le_left _ _, .nil, rfl⟩
    · exact ⟨Nat.min_le_left _ _, .nil, rfl⟩
    · next b hs =>
      obtain ⟨htime, htimely, hrequests⟩ := tick_from out limit mark
        ⟨asked, asked + a.delay, b, max (asked + a.delay) (clock.wake due), []⟩ a.source (a.linesFrom asked) rfl
      have hbegan : asked + a.delay ≤ max (asked + a.delay) (clock.wake due) := Nat.le_max_left _ _
      refine ⟨Nat.le_trans ?_ htime, htimely.mono hbegan, hrequests⟩
      exact Nat.le_min.mpr ⟨Nat.le_trans (Nat.min_le_left _ _) hbegan, Nat.min_le_right _ _⟩

theorem answer_cut (hle : limit ≤ limit') (hasked : now < limit) (a : Supplied σ) :
    TurnEnd.Cut limit (answer out clock limit mark now due a) (answer out clock limit' mark now due a) := by
  by_cases hanswered : limit ≤ now + a.delay
  · obtain ⟨htime, htimely, hrequests⟩ := answer_from out clock limit' mark now due a
    have hlate : answer out clock limit mark now due a = .stopped (.asking now) limit .cut [] := if_pos hanswered
    rw [hlate]
    refine .short (by omega) (htimely.before_eq_nil hanswered).symm ?_
    rw [hrequests]
    simp [Phase.request?, hasked]
  · have hanswered' : ¬limit' ≤ now + a.delay := by omega
    unfold answer
    rw [if_neg hanswered, if_neg hanswered']
    split
    · exact .same _
    · exact .same _
    · exact tick_cut hle hasked rfl

theorem take_from (src : Source σ) (out : Outflow) (p : Pacing) (limit : Nat) (s : σ) (mark : Mark) (now due : Nat) :
    min now limit ≤ (take src out p limit s mark now due).time ∧ Timely now (take src out p limit s mark now due).pieces ∧
      ∀ q ∈ (take src out p limit s mark now due).requests, q = now := by
  unfold take
  split
  · exact ⟨Nat.min_le_right _ _, .nil, nofun⟩
  · split
    · exact ⟨Nat.min_le_right _ _, .nil, fun q hq => List.mem_singleton.mp hq⟩
    · next a ha =>
      obtain ⟨htime, htimely, hrequests⟩ := answer_from out p.clock limit mark now due a
      have hanswered := Nat.le_add_right now a.delay
      refine ⟨Nat.le_trans ?_ htime, htimely.mono hanswered, fun q hq => ?_⟩
      · exact Nat.le_min.mpr ⟨Nat.le_trans (Nat.min_le_left _ _) hanswered, Nat.min_le_right _ _⟩
      · rw [hrequests] at hq
        exact List.mem_singleton.mp hq

theorem take_cut (src : Source σ) (out : Outflow) (p : Pacing) (s : σ) (mark : Mark) (now due : Nat)
    (hle : limit ≤ limit') :
    TurnEnd.Cut limit (take src out p limit s mark now due) (take src out p limit' s mark now due) := by
  by_cases hnow : limit ≤ now
  · obtain ⟨htime, htimely, hrequests⟩ := take_from src out p limit' s mark now due
    have hlate : take src out p limit s mark now due = .stopped .idle limit .cut [] := if_pos hnow
    rw [hlate]
    refine .short (by omega) (htimely.before_eq_nil hnow).symm (List.filter_eq_nil_iff.mpr fun q hq => ?_).symm
    have heq := hrequests q hq
    simp only [decide_eq_true_eq]
    omega
  · have hasked := Nat.lt_of_not_le hnow
    have hnow' : ¬limit' ≤ now := by omega
    unfold take
    rw [if_neg hnow, if_neg hnow']
    split
    · refine .short hle rfl ?_
      simp [TurnEnd.requests, Phase.request?, hasked]
    · exact answer_cut hle hasked _

end Step
end Turn

namespace Outbound

/-! ### The whole half -/

section Run
variable {src : Source σ} {out : Outflow} {p : Pacing} {limit limit' : Nat} {s s' : σ} {mark mark' : Mark}
  {now due time : Nat}
  {turn : Turn} {phase : Phase} {ending : OutboundEnd} {lines : List (Nat × Line)}

theorem run_of_stopped (h : Turn.take src out p limit s mark now due = .stopped phase time ending lines) :
    run src out p limit s mark now due = ⟨[], phase, time, ending, lines⟩ := by
  rw [run]
  split
  · next hturn =>
    cases h.symm.trans hturn
    rfl
  · next hturn => cases h.symm.trans hturn

theorem run_of_finished (h : Turn.take src out p limit s mark now due = .finished turn time s' mark' lines) :
    run src out p limit s mark now due = prepend turn lines (run src out p limit s' mark' time (due + p.cadence)) := by
  rw [run]
  split
  · next hturn => cases h.symm.trans hturn
  · next hturn =>
    cases h.symm.trans hturn
    rfl

/-- The half that is cut at `limit`, and the half that is cut later: it has come to its end before, or else it is cut
    short. -/
inductive Cut (limit : Nat) : Outbound → Outbound → Prop
  | same (o : Outbound) : Cut limit o o
  | short {o o' : Outbound} (hending : o.ending = .cut) (htime : limit ≤ o'.time)
      (hpieces : o.pieces = Transfer.before limit o'.pieces) (hrequests : o.requests = o'.requests.filter (· < limit)) :
      Cut limit o o'

theorem pieces_prepend (turn : Turn) (lines : List (Nat × Line)) (o : Outbound) :
    (prepend turn lines o).pieces = turn.pieces ++ o.pieces := by
  simp only [pieces, prepend, List.flatMap_cons, List.append_assoc]

theorem requests_prepend (turn : Turn) (lines : List (Nat × Line)) (o : Outbound) :
    (prepend turn lines o).requests = turn.asked :: o.requests := rfl

theorem run_requests_from (src : Source σ) (out : Outflow) (p : Pacing) (limit : Nat) (s : σ) (mark : Mark)
    (now due : Nat) :
    ∀ q ∈ (run src out p limit s mark now due).requests, now ≤ q := by
  fun_induction run src out p limit s mark now due with
  | case1 s mark now due phase time ending lines hturn =>
    intro q hq
    obtain ⟨-, -, hrequests⟩ := Turn.take_from src out p limit s mark now due
    rw [hturn] at hrequests
    exact Nat.le_of_eq (hrequests q hq).symm
  | case2 s mark now due turn time s' mark' lines hturn ih =>
    obtain ⟨-, -, hnow, -⟩ := finished_timely hturn
    rw [requests_prepend, (take_finishes hturn).asked]
    exact List.forall_mem_cons.mpr ⟨Nat.le_refl now, fun q hq => Nat.le_trans hnow (ih q hq)⟩

theorem run_cut (src : Source σ) (out : Outflow) (p : Pacing) (s : σ) (mark : Mark) (now due : Nat) (hle : limit ≤ limit') :
    Cut limit (run src out p limit s mark now due) (run src out p limit' s mark now due) := by
  fun_induction run src out p limit' s mark now due with
  | case1 s mark now due phase time ending lines hturn =>
    have hcut := Turn.take_cut src out p s mark now due hle
    rw [hturn] at hcut
    generalize hx : Turn.take src out p limit s mark now due = x at hcut
    cases hcut with
    | same =>
      rw [run_of_stopped hx]
      exact .same _
    | short htime hpieces hrequests =>
      rw [run_of_stopped hx]
      exact .short rfl htime hpieces hrequests
  | case2 s mark now due turn time s' mark' lines hturn ih =>
    have hcut := Turn.take_cut src out p s mark now due hle
    rw [hturn] at hcut
    generalize hx : Turn.take src out p limit s mark now due = x at hcut
    cases hcut with
    | same =>
      -- The turn is finished before either cut.
      obtain ⟨-, hpieces, -, htime⟩ := finished_timely hx
      have hturn := take_finishes hx
      rw [run_of_finished hx]
      generalize run src out p limit s' mark' time (due + p.cadence) = o at ih
      generalize run src out p limit' s' mark' time (due + p.cadence) = o' at ih
      cases ih with
      | same => exact .same _
      | short hending hlate hbefore hrequests =>
        refine .short hending hlate ?_ ?_
        · rw [pieces_prepend, pieces_prepend, hbefore, Transfer.before, Transfer.before, List.filter_append]
          refine congrArg (· ++ _) (List.filter_eq_self.mpr fun q hq => decide_eq_true ?_).symm
          exact Nat.lt_of_le_of_lt (hpieces q hq) htime
        · rw [requests_prepend, requests_prepend, hrequests, List.filter_cons_of_pos]
          rw [hturn.asked]
          exact decide_eq_true hturn.now_lt
    | short htime hpieces hrequests =>
      -- The turn is not finished before the earlier cut, so that all behind it comes later.
      obtain ⟨htimely, -, hmin⟩ := run_timely src out p limit' s' mark' time (due + p.cadence)
      have hfrom := run_requests_from src out p limit' s' mark' time (due + p.cadence)
      have htime : limit ≤ time := htime
      rw [run_of_stopped hx]
      refine .short rfl (Nat.le_trans (Nat.le_min.mpr ⟨htime, hle⟩) hmin) ?_ ?_
      · rw [pieces_prepend, Transfer.before, List.filter_append, htimely.before_eq_nil htime, List.append_nil]
        exact hpieces
      · have hnone : (run src out p limit' s' mark' time (due + p.cadence)).requests.filter (· < limit) = [] := by
          refine List.filter_eq_nil_iff.mpr fun q hq => ?_
          have hq := hfrom q hq
          simp only [decide_eq_true_eq]
          omega
        rw [requests_prepend, ← List.singleton_append, List.filter_append, hnone, List.append_nil]
        exact hrequests

/-- A half that comes to its end before the cut comes to the same end wherever it is cut behind that. -/
theorem run_eq_of_time_lt (hne : (run src out p limit' s mark now due).ending ≠ .cut)
    (hlt : (run src out p limit' s mark now due).time < limit) :
    run src out p limit s mark now due = run src out p limit' s mark now due := by
  rcases Nat.le_total limit limit' with hle | hle
  · have hcut := run_cut src out p s mark now due hle
    generalize run src out p limit s mark now due = o at hcut ⊢
    cases hcut with
    | same => rfl
    | short hending htime => exact absurd hlt (Nat.not_lt_of_le htime)
  · have hcut := run_cut src out p s mark now due hle
    generalize run src out p limit' s mark now due = o at hcut hne ⊢
    cases hcut with
    | same => rfl
    | short hending => exact absurd hending hne

theorem Cut.before {u : Nat} {o o' : Outbound} (h : Cut limit o o') (hu : u ≤ limit) :
    Transfer.before u o.pieces = Transfer.before u o'.pieces ∧ o.requests.filter (· < u) = o'.requests.filter (· < u) := by
  cases h with
  | same => exact ⟨rfl, rfl⟩
  | short hending htime hpieces hrequests =>
    rw [hpieces, hrequests]
    exact ⟨Transfer.before_before hu _, filter_filter_lt hu id _⟩

/-- Before either cut nothing shows where the half is cut. -/
theorem run_before {u : Nat} (hu : u ≤ limit) (hu' : u ≤ limit') :
    Transfer.before u (run src out p limit s mark now due).pieces =
      Transfer.before u (run src out p limit' s mark now due).pieces ∧
      (run src out p limit s mark now due).requests.filter (· < u) =
        (run src out p limit' s mark now due).requests.filter (· < u) := by
  rcases Nat.le_total limit limit' with hle | hle
  · exact (run_cut src out p s mark now due hle).before hu
  · obtain ⟨hpieces, hrequests⟩ := (run_cut src out p s mark now due hle).before hu'
    exact ⟨hpieces.symm, hrequests.symm⟩

end Run
end Outbound
end CallRelay
