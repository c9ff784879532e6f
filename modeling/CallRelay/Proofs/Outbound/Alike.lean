import CallRelay.Proofs.Outbound.Cutting
import Mathlib.Data.List.Forall2

/-! # One half on two connections

Two connections that take the messages of a half alike, as far as the half is not cut before they have, carry it through the
same turns to the same end. What counts as alike is left open: pieces may be looked at through a function `view`, and how
far a connection was used through a function `gauge`. -/

namespace CallRelay
variable {σ α β : Type}

section Views
variable (view : List (Nat × Bytes) → α) (gauge : Mark → β) (limit : Nat)

/-- The transfer does not come to its end before `limit`. -/
def Transfer.Late (x : Transfer) : Prop := ∀ t, (x.ending = .done t ∨ ∃ f, x.ending = .failed t f) → limit ≤ t

/-- Two transfers that come to the same end, or to none before `limit`, with pieces that are seen alike. -/
inductive Transfer.Alike (x y : Transfer) : Prop
  | done {t : Nat} (ht : t < limit) (hx : x.ending = .done t) (hy : y.ending = .done t) (hv : view x.pieces = view y.pieces)
      (hg : gauge x.mark = gauge y.mark)
  | failed {t : Nat} {f : Fault} (ht : t < limit) (hx : x.ending = .failed t f) (hy : y.ending = .failed t f)
      (hv : view x.pieces = view y.pieces)
  | late (hx : x.Late limit) (hy : y.Late limit) (hv : view (before limit x.pieces) = view (before limit y.pieces))

structure Turn.Alike (x y : Turn) : Prop where
  asked : x.asked = y.asked
  answered : x.answered = y.answered
  chunk : x.chunk = y.chunk
  began : x.began = y.began
  pieces : view x.pieces = view y.pieces

inductive Phase.Alike : Phase → Phase → Prop
  | idle : Alike .idle .idle
  | asking (asked : Nat) : Alike (.asking asked) (.asking asked)
  | holding (asked answered : Nat) (chunk : Bytes) : Alike (.holding asked answered chunk) (.holding asked answered chunk)
  | sending {x y : Turn} (h : Turn.Alike view x y) : Alike (.sending x) (.sending y)

inductive TurnEnd.Alike : TurnEnd σ → TurnEnd σ → Prop
  | finished {x y : Turn} {time : Nat} {s : σ} {m m' : Mark} {lines : List (Nat × Line)} (h : Turn.Alike view x y)
      (hg : gauge m = gauge m') : Alike (.finished x time s m lines) (.finished y time s m' lines)
  | stopped {p q : Phase} {time : Nat} {ending : OutboundEnd} {lines : List (Nat × Line)} (h : Phase.Alike view p q) :
      Alike (.stopped p time ending lines) (.stopped q time ending lines)

/-- Two halves that differ in nothing but the pieces in which their messages were accepted, and these are seen alike. -/
structure Outbound.Alike (o o' : Outbound) : Prop where
  turns : List.Forall₂ (Turn.Alike view) o.turns o'.turns
  phase : Phase.Alike view o.phase o'.phase
  time : o.time = o'.time
  ending : o.ending = o'.ending
  lines : o.lines = o'.lines

/-- Each message that the half `o` began on the connection `a` is taken alike by the connection `b`, if that has been used
    alike before. -/
def Outbound.TakenAlike (a b : Outflow) (mark : Mark) (o : Outbound) : Prop :=
  ∀ n turn w m', o.begun[n]? = some turn → turn.chunk ≠ [] → encodeAudio turn.chunk = .ok w →
    gauge (Transfer.markAfter mark ((o.turns.take n).flatMap Turn.pieces)) = gauge m' →
    Transfer.Alike view gauge limit (a.send (Transfer.markAfter mark ((o.turns.take n).flatMap Turn.pieces)) w turn.began)
      (b.send m' w turn.began)

end Views

theorem Transfer.Alike.of_ending {view : List (Nat × Bytes) → α} {gauge : Mark → β} {limit : Nat} {x y : Transfer}
    (he : x.ending = y.ending) (hv : view x.pieces = view y.pieces) (hg : gauge x.mark = gauge y.mark)
    (hbefore : view (before limit x.pieces) = view (before limit y.pieces)) : Alike view gauge limit x y := by
  by_cases hlate : x.Late limit
  · exact .late hlate (fun t ht => hlate t (he ▸ ht)) hbefore
  · simp only [Late, not_forall, Nat.not_le] at hlate
    obtain ⟨t, hx | ⟨f, hx⟩, ht⟩ := hlate
    · exact .done ht hx (he.symm.trans hx) hv hg
    · exact .failed ht hx (he.symm.trans hx) hv

theorem Transfer.Alike.of_eq (view : List (Nat × Bytes) → α) (gauge : Mark → β) (limit : Nat) {x y : Transfer} (h : x = y) :
    Alike view gauge limit x y := by
  subst h
  exact .of_ending rfl rfl rfl rfl

/-- The turn that began, if one did. -/
def TurnEnd.begun? : TurnEnd σ → Option Turn
  | finished turn _ _ _ _ => some turn
  | stopped phase _ _ _ => phase.turn?

/-! ### One turn -/

section Step
variable {view : List (Nat × Bytes) → α} {gauge : Mark → β} {limit : Nat} {a b out : Outflow} {mark m m' : Mark}
  {turn : Turn}
  {s : σ} {lines : List (Nat × Line)} {x y : Transfer} {w : Bytes}

namespace Turn

theorem write_of_late (h : x.Late limit) (turn : Turn) (s : σ) (lines : List (Nat × Line)) :
    write limit turn x s lines = cutShort limit turn x lines := by
  unfold write
  split
  · next t he => rw [if_neg (Nat.not_lt_of_le (h t (Or.inl he)))]
  · next t f he => rw [if_neg (Nat.not_lt_of_le (h t (Or.inr ⟨f, he⟩)))]
  · rfl

theorem write_alike (h : Transfer.Alike view gauge limit x y) (turn : Turn) (s : σ) (lines : List (Nat × Line)) :
    TurnEnd.Alike view gauge (write limit turn x s lines) (write limit turn y s lines) := by
  cases h with
  | done ht hx hy hv hg =>
    simp only [write, hx, hy, if_pos ht]
    exact .finished ⟨rfl, rfl, rfl, rfl, hv⟩ hg
  | failed ht hx hy hv =>
    simp only [write, hx, hy, if_pos ht]
    exact .stopped (.sending ⟨rfl, rfl, rfl, rfl, hv⟩)
  | late hx hy hv =>
    rw [write_of_late hx, write_of_late hy]
    exact .stopped (.sending ⟨rfl, rfl, rfl, rfl, hv⟩)

theorem write_begun (limit : Nat) (turn : Turn) (x : Transfer) (s : σ) (lines : List (Nat × Line)) :
    ∃ ps, (write limit turn x s lines).begun? = some { turn with pieces := ps } := by
  unfold write cutShort
  split
  · split <;> exact ⟨_, rfl⟩
  · split <;> exact ⟨_, rfl⟩
  · exact ⟨_, rfl⟩

theorem tick_eq_write (hlim : ¬limit ≤ turn.began) (hc : turn.chunk ≠ []) (hw : encodeAudio turn.chunk = .ok w) :
    tick out limit mark turn s lines = write limit turn (out.send mark w turn.began) s lines := by
  simp only [tick, if_neg hlim, if_neg hc, hw]

theorem tick_alike (hg : gauge m = gauge m')
    (h : ∀ turn' w, (tick a limit m turn s lines).begun? = some turn' → turn'.chunk ≠ [] → encodeAudio turn'.chunk = .ok w →
      Transfer.Alike view gauge limit (a.send m w turn'.began) (b.send m' w turn'.began)) :
    TurnEnd.Alike view gauge (tick a limit m turn s lines) (tick b limit m' turn s lines) := by
  by_cases hlim : limit ≤ turn.began
  · simp only [tick, if_pos hlim]
    exact .stopped (.holding _ _ _)
  · by_cases hc : turn.chunk = []
    · simp only [tick, if_neg hlim, if_pos hc]
      exact .finished ⟨rfl, rfl, rfl, rfl, rfl⟩ hg
    · cases hw : encodeAudio turn.chunk with
      | error e =>
        simp only [tick, if_neg hlim, if_neg hc, hw]
        exact .stopped (.holding _ _ _)
      | ok w =>
        rw [tick_eq_write hlim hc hw] at h ⊢
        rw [tick_eq_write hlim hc hw]
        obtain ⟨ps, hbegun⟩ := write_begun limit turn (a.send m w turn.began) s lines
        exact write_alike (h _ w hbegun hc hw) turn s lines

theorem take_alike (src : Source σ) (p : Pacing) {now due : Nat} (hg : gauge m = gauge m')
    (h : ∀ turn w, (take src a p limit s m now due).begun? = some turn → turn.chunk ≠ [] → encodeAudio turn.chunk = .ok w →
      Transfer.Alike view gauge limit (a.send m w turn.began) (b.send m' w turn.began)) :
    TurnEnd.Alike view gauge (take src a p limit s m now due) (take src b p limit s m' now due) := by
  unfold take at h ⊢
  by_cases hlim : limit ≤ now
  · simp only [if_pos hlim]
    exact .stopped .idle
  · simp only [if_neg hlim] at h ⊢
    cases hnext : src.next s p.frameSize now with
    | none => exact .stopped (.asking now)
    | some a' =>
      simp only [hnext] at h ⊢
      unfold answer at h ⊢
      by_cases hlate : limit ≤ now + a'.delay
      · simp only [if_pos hlate]
        exact .stopped (.asking now)
      · simp only [if_neg hlate] at h ⊢
        cases hs : a'.supply with
        | failed f => exact .stopped (.asking now)
        | done => exact .stopped (.asking now)
        | chunk c =>
          simp only [hs] at h ⊢
          exact tick_alike hg h

end Turn
end Step

/-! ### The whole half -/

namespace Outbound

section Run
variable {view : List (Nat × Bytes) → α} {gauge : Mark → β} {limit : Nat} {a b : Outflow} {m' : Mark} {o o' : Outbound}

theorem run_alike (src : Source σ) (p : Pacing) (s : σ) (mark : Mark) (now due : Nat) (hg : gauge mark = gauge m')
    (h : TakenAlike view gauge limit a b mark (run src a p limit s mark now due)) :
    Alike view (run src a p limit s mark now due) (run src b p limit s m' now due) := by
  fun_induction run src a p limit s mark now due generalizing m' with
  | case1 s mark now due phase time ending lines hturn =>
    have hcomes : TurnEnd.Alike view gauge (Turn.take src a p limit s mark now due)
        (Turn.take src b p limit s m' now due) := by
      refine Turn.take_alike src p hg fun turn w hbegun hc hw => h 0 turn w m' ?_ hc hw hg
      rw [hturn] at hbegun
      have hbegun : phase.turn? = some turn := hbegun
      show phase.turn?.toList[0]? = some turn
      rw [hbegun]
      rfl
    rw [hturn] at hcomes
    generalize hb : Turn.take src b p limit s m' now due = y at hcomes
    cases hcomes with
    | stopped hphase =>
      rw [run_of_stopped hb]
      exact ⟨.nil, hphase, rfl, rfl, rfl⟩
  | case2 s mark now due turn time s' mark' lines hturn ih =>
    have hcomes : TurnEnd.Alike view gauge (Turn.take src a p limit s mark now due)
        (Turn.take src b p limit s m' now due) := by
      refine Turn.take_alike src p hg fun turn' w hbegun hc hw => h 0 turn' w m' ?_ hc hw hg
      rw [hturn] at hbegun
      exact hbegun
    rw [hturn] at hcomes
    generalize hb : Turn.take src b p limit s m' now due = y at hcomes
    cases hcomes with
    | @finished _ turn' _ _ _ m'' _ hsame hg' =>
      rw [run_of_finished hb]
      have hlater := ih hg' fun n later w m hn hc hw hm => by
        -- The turns behind the first one are handed over behind its pieces.
        have hmark : Transfer.markAfter mark (((turn :: (run src a p limit s' mark' time (due + p.cadence)).turns).take
            (n + 1)).flatMap Turn.pieces) = Transfer.markAfter mark'
              (((run src a p limit s' mark' time (due + p.cadence)).turns.take n).flatMap Turn.pieces) := by
          rw [List.take_succ_cons, List.flatMap_cons, Transfer.markAfter_append, ← (take_finishes hturn).mark]
        have hbehind := h (n + 1) later w m hn hc hw
        rw [prepend, hmark] at hbehind
        exact hbehind hm
      exact ⟨.cons hsame hlater.turns, hlater.phase, hlater.time, hlater.ending, congrArg (lines ++ ·) hlater.lines⟩

/-! ### What halves that are alike have in common -/

theorem Alike.map_turns {γ : Type} (h : Alike view o o') (f : Turn → γ) (hf : ∀ x y, Turn.Alike view x y → f x = f y) :
    o.turns.map f = o'.turns.map f := by
  have hturns : List.Forall₂ (fun x y => f x = f y) o.turns o'.turns := h.turns.imp hf
  rwa [← List.forall₂_eq_eq_eq, List.forall₂_map_left_iff, List.forall₂_map_right_iff]

theorem Alike.sent (h : Alike view o o') : o.sent = o'.sent :=
  congrArg (List.filter (· ≠ [])) (h.map_turns Turn.chunk fun _ _ hxy => hxy.chunk)

theorem Alike.requests (h : Alike view o o') : o.requests = o'.requests := by
  have hphase := h.phase
  rw [Outbound.requests, Outbound.requests, h.map_turns Turn.asked fun _ _ hxy => hxy.asked]
  generalize o.phase = x at hphase ⊢
  generalize o'.phase = y at hphase ⊢
  cases hphase with
  | sending hxy => rw [Phase.request?, Phase.request?, hxy.asked]
  | _ => rfl

/-- Halves whose very pieces are alike are the same. -/
theorem Alike.eq (h : Alike id o o') : o = o' := by
  have hturn : ∀ x y : Turn, Turn.Alike id x y → x = y := by
    rintro ⟨asked, answered, chunk, began, pieces⟩ ⟨asked', answered', chunk', began', pieces'⟩ hxy
    obtain ⟨rfl, rfl, rfl, rfl, rfl⟩ := hxy
    rfl
  have hturns := h.map_turns id hturn
  rw [List.map_id, List.map_id] at hturns
  obtain ⟨turns, phase, time, ending, lines⟩ := o
  obtain ⟨turns', phase', time', ending', lines'⟩ := o'
  obtain ⟨-, hphase, rfl, rfl, rfl⟩ := h
  obtain rfl : turns = turns' := hturns
  cases hphase with
  | sending hxy => rw [hturn _ _ hxy]
  | _ => rfl

end Run
end Outbound
end CallRelay
