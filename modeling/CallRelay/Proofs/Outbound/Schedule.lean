import CallRelay.Proofs.Outbound

/-! # The schedule of the outbound half

The source is asked at the start and then whenever a turn is over. A turn begins when the source has answered
and its tick has come, whichever is later, and its message is handed over from that instant on. The ticks are
those of a fixed schedule: nothing that held up one turn moves the tick of another. -/

namespace CallRelay
variable {σ : Type}

/-! ### The course of a half -/

/-- Asked for at most `room` bytes at the first of each pair of instants, the source answers at the second with
    the chunk, and goes on as the last state. -/
inductive Source.Answers (src : Source σ) (room : Nat) : σ → List (Nat × Nat × Bytes) → σ → Prop
  | nil (s : σ) : Answers src room s [] s
  | cons {s s' : σ} {t : Nat} {a : Supplied σ} {b : Bytes} {l : List (Nat × Nat × Bytes)} (ha : src.next s room t = some a)
      (hs : a.supply = .chunk b) (later : Answers src room a.source l s') : Answers src room s ((t, t + a.delay, b) :: l) s'

/-- When a turn is over: with the last of its pieces, or with its tick if it has none. -/
def Turn.ended (turn : Turn) : Nat := (turn.pieces.map Prod.fst).getLastD turn.began

namespace Phase

/-- When the source was asked last, in the unfinished turn. -/
def request? : Phase → Option Nat
  | idle => none
  | asking asked | holding asked _ _ => some asked
  | sending turn => some turn.asked

/-- When the source was asked and when it answered with what, in the unfinished turn. -/
def answer? : Phase → Option (Nat × Nat × Bytes)
  | holding asked answered chunk => some (asked, answered, chunk)
  | sending turn => some (turn.asked, turn.answered, turn.chunk)
  | _ => none

/-- The unfinished turn, if its message was being written. -/
def turn? : Phase → Option Turn
  | sending turn => some turn
  | _ => none

end Phase

namespace Outbound

/-- When the source was asked. -/
def requests (o : Outbound) : List Nat := o.turns.map Turn.asked ++ o.phase.request?.toList

/-- When the source was asked and when it answered with what chunk. -/
def answers (o : Outbound) : List (Nat × Nat × Bytes) :=
  o.turns.map (fun turn => (turn.asked, turn.answered, turn.chunk)) ++ o.phase.answer?.toList

/-- The turns that began: their messages were handed over, or left out for an empty chunk. -/
def begun (o : Outbound) : List Turn := o.turns ++ o.phase.turn?.toList

/-- The turn has handed over the message of its chunk from its beginning on, to a connection that had been used
    as far as `mark` and up to the cut; or it had nothing to hand over. -/
def HandsOver (out : Outflow) (limit : Nat) (mark : Mark) (turn : Turn) : Prop :=
  turn.chunk = [] ∧ turn.pieces = [] ∨
    turn.chunk ≠ [] ∧ ∃ w, encodeAudio turn.chunk = .ok w ∧
      turn.pieces = Transfer.before limit (out.send mark w turn.began).pieces

/-- The half asks its source for the first time at `start`, and `tick n` is the earliest instant for its n-th turn.
    The source is in state `s` then, and the connection has been used as far as `mark`. -/
structure Scheduled (src : Source σ) (out : Outflow) (room limit start : Nat) (tick : Nat → Nat) (s : σ) (mark : Mark)
    (o : Outbound) : Prop where
  /-- The source is asked at the start, and then whenever a turn is over. -/
  requests : start < limit → o.requests = start :: o.turns.map Turn.ended
  nothing : limit ≤ start → o.turns = [] ∧ o.phase = .idle
  /-- The answers are those of the source, and it yields no further chunk before the cut. -/
  answers : ∃ s', src.Answers room s o.answers s' ∧ ∀ t a b, o.phase = .asking t → src.next s' room t = some a →
    a.supply = .chunk b → limit ≤ t + a.delay
  /-- A turn begins with its tick, or with the answer of the source if that is later. -/
  began : ∀ n turn, o.begun[n]? = some turn → turn.began = max turn.answered (tick (n + 1)) ∧ turn.began < limit
  handsOver : ∀ n turn, o.begun[n]? = some turn →
    HandsOver out limit (Transfer.markAfter mark ((o.turns.take n).flatMap Turn.pieces)) turn
  /-- A chunk that was not sent came too late or, at the instant at which its turn would have begun, was found to be
      too long for a message. -/
  held : ∀ asked answered chunk, o.phase = .holding asked answered chunk →
    o.ending = .cut ∧ limit ≤ max answered (tick (o.turns.length + 1)) ∨
      ∃ e, encodeAudio chunk = .error e ∧ o.ending = .failed (.codec e) ∧ o.time = max answered (tick (o.turns.length + 1))
  /-- The half ends before the cut, or else it is cut. -/
  ends : o.ending = .cut ∧ o.time = limit ∨ o.ending ≠ .cut ∧ o.time < limit

/-! ### One turn -/

section Step
variable {src : Source σ} {out : Outflow} {p : Pacing} {limit : Nat} {s s' : σ} {mark mark' : Mark} {now due time : Nat}
  {turn : Turn} {phase : Phase} {ending : OutboundEnd} {lines : List (Nat × Line)} {tick : Nat → Nat}

theorem HandsOver.of_before {w : Bytes} (hw : encodeAudio turn.chunk = .ok w) (hc : turn.chunk ≠ [])
    (hp : turn.pieces = Transfer.before limit (out.send mark w turn.began).pieces) : HandsOver out limit mark turn :=
  Or.inr ⟨hc, w, hw, hp⟩

/-- Everything about a finished turn and what follows it. -/
structure Finishes (src : Source σ) (out : Outflow) (p : Pacing) (limit : Nat) (s : σ) (mark : Mark) (now due : Nat)
    (turn : Turn) (time : Nat) (s' : σ) (mark' : Mark) : Prop where
  asked : turn.asked = now
  answered : ∃ a, src.next s p.frameSize now = some a ∧ a.supply = .chunk turn.chunk ∧ a.source = s' ∧
    turn.answered = now + a.delay
  began : turn.began = max turn.answered (p.clock.wake due)
  handsOver : HandsOver out limit mark turn
  ended : time = turn.ended
  now_lt : now < limit
  began_lt : turn.began < limit
  time_lt : time < limit
  mark : mark' = Transfer.markAfter mark turn.pieces

theorem take_finishes (h : Turn.take src out p limit s mark now due = .finished turn time s' mark' lines) :
    Finishes src out p limit s mark now due turn time s' mark' := by
  have hturn := Turn.take_comesTo src out p limit s mark now due
  rw [h] at hturn
  cases hturn with
  | @chunk a b x ha hs hx =>
    cases hx with
    | empty hlim hc => exact ⟨rfl, ⟨a, ha.next, hs, rfl, rfl⟩, rfl, Or.inl ⟨hc, rfl⟩, rfl, ha.asked, hlim, hlim, rfl⟩
    | @sent w x t hlim hc hw hx he ht =>
      have hd := send_delivers out mark w (max (now + a.delay) (p.clock.wake due))
      have hmark := send_mark out mark w (max (now + a.delay) (p.clock.wake due))
      simp only at hx
      rw [hx] at hd hmark
      refine ⟨rfl, ⟨a, ha.next, hs, rfl, rfl⟩, rfl, .of_before hw hc ?_, (hd.getLastD_of_done he).symm, ha.asked, hlim, ht,
        hmark⟩
      simp only [hx]
      exact (hd.before_eq (Or.inl he) ht).symm

theorem scheduled_sending {a : Supplied σ} (ha : Turn.Answered src p limit s now a) (hs : a.supply = .chunk turn.chunk)
    (hasked : turn.asked = now) (hanswered : turn.answered = now + a.delay)
    (hbegan : turn.began = max turn.answered (tick 1)) (hlim : turn.began < limit) (hhands : HandsOver out limit mark turn)
    (hends : ending = .cut ∧ time = limit ∨ ending ≠ .cut ∧ time < limit) :
    Scheduled src out p.frameSize limit now tick s mark ⟨[], .sending turn, time, ending, lines⟩ := by
  have hfirst : ∀ n turn', ([turn] : List Turn)[n]? = some turn' → n = 0 ∧ turn' = turn := by
    intro n turn' hn
    cases n with
    | zero => exact ⟨rfl, (Option.some.inj hn).symm⟩
    | succ n => cases hn
  constructor
  · intro _
    exact congrArg (· :: []) hasked
  · intro hle
    exact absurd ha.asked (Nat.not_lt_of_le hle)
  · refine ⟨a.source, ?_, nofun⟩
    show src.Answers p.frameSize s [(turn.asked, turn.answered, turn.chunk)] a.source
    rw [hasked, hanswered]
    exact .cons ha.next hs (.nil _)
  · intro n turn' hn
    obtain ⟨rfl, rfl⟩ := hfirst n turn' hn
    exact ⟨hbegan, hlim⟩
  · intro n turn' hn
    obtain ⟨rfl, rfl⟩ := hfirst n turn' hn
    exact hhands
  · exact nofun
  · exact hends

theorem scheduled_holding {a : Supplied σ} {b : Bytes} (ha : Turn.Answered src p limit s now a) (hs : a.supply = .chunk b)
    (hheld : ending = .cut ∧ limit ≤ max (now + a.delay) (tick 1) ∨
      ∃ e, encodeAudio b = .error e ∧ ending = .failed (.codec e) ∧ time = max (now + a.delay) (tick 1))
    (hends : ending = .cut ∧ time = limit ∨ ending ≠ .cut ∧ time < limit) :
    Scheduled src out p.frameSize limit now tick s mark ⟨[], .holding now (now + a.delay) b, time, ending, lines⟩ := by
  constructor
  · intro _
    rfl
  · intro hle
    exact absurd ha.asked (Nat.not_lt_of_le hle)
  · exact ⟨a.source, .cons ha.next hs (.nil _), nofun⟩
  · intro n turn hn
    cases hn
  · intro n turn hn
    cases hn
  · rintro asked answered chunk ⟨⟩
    exact hheld
  · exact hends

theorem scheduled_asking (hlt : now < limit)
    (ha : ∀ a b, src.next s p.frameSize now = some a → a.supply = .chunk b → limit ≤ now + a.delay)
    (hends : ending = .cut ∧ time = limit ∨ ending ≠ .cut ∧ time < limit) :
    Scheduled src out p.frameSize limit now tick s mark ⟨[], .asking now, time, ending, lines⟩ := by
  constructor
  · intro _
    rfl
  · intro hle
    exact absurd hlt (Nat.not_lt_of_le hle)
  · refine ⟨s, .nil s, ?_⟩
    rintro t a b ⟨⟩ hnext hs
    exact ha a b hnext hs
  · intro n turn hn
    cases hn
  · intro n turn hn
    cases hn
  · exact nofun
  · exact hends

theorem stopped_scheduled (h : Turn.take src out p limit s mark now due = .stopped phase time ending lines)
    (htick : tick 1 = p.clock.wake due) :
    Scheduled src out p.frameSize limit now tick s mark ⟨[], phase, time, ending, lines⟩ := by
  have hturn := Turn.take_comesTo src out p limit s mark now due
  rw [h] at hturn
  cases hturn with
  | late hlim =>
    refine ⟨fun hlt => ?_, fun _ => ⟨rfl, rfl⟩, ⟨s, .nil s, nofun⟩, nofun, nofun, nofun, Or.inl ⟨rfl, rfl⟩⟩
    exact absurd hlim (Nat.not_le_of_lt hlt)
  | unanswered hlim ha => exact scheduled_asking hlim (fun a _ hnext _ => ha a hnext) (Or.inl ⟨rfl, rfl⟩)
  | @failed a f ha hs =>
    refine scheduled_asking ha.asked (fun a' b hnext hs' => ?_) (Or.inr ⟨nofun, ha.answered⟩)
    cases ha.next.symm.trans hnext
    cases hs.symm.trans hs'
  | @exhausted a ha hs =>
    refine scheduled_asking ha.asked (fun a' b hnext hs' => ?_) (Or.inr ⟨nofun, ha.answered⟩)
    cases ha.next.symm.trans hnext
    cases hs.symm.trans hs'
  | @chunk a b x ha hs hx =>
    rw [← htick] at hx
    cases hx with
    | late hlim => exact scheduled_holding ha hs (Or.inl ⟨rfl, hlim⟩) (Or.inl ⟨rfl, rfl⟩)
    | @tooLong e hlim hc hw => exact scheduled_holding ha hs (Or.inr ⟨e, hw, rfl, rfl⟩) (Or.inr ⟨nofun, hlim⟩)
    | @broken w x t f hlim hc hw hx he ht =>
      have hd := send_delivers out mark w (max (now + a.delay) (tick 1))
      simp only at hx
      rw [hx] at hd
      refine scheduled_sending ha hs rfl rfl rfl hlim (.of_before hw hc ?_) (Or.inr ⟨nofun, ht⟩)
      simp only [hx]
      exact (hd.before_eq (Or.inr ⟨f, he⟩) ht).symm
    | @cut w x hlim hc hw hx he =>
      subst hx
      exact scheduled_sending ha hs rfl rfl rfl hlim (.of_before hw hc rfl) (Or.inl ⟨rfl, rfl⟩)

theorem Finishes.scheduled {o : Outbound} (hturn : Finishes src out p limit s mark now due turn time s' mark')
    (htick : tick 1 = p.clock.wake due) (h : Scheduled src out p.frameSize limit time (fun n => tick (n + 1)) s' mark' o) :
    Scheduled src out p.frameSize limit now tick s mark (prepend turn lines o) := by
  constructor
  · intro _
    show turn.asked :: o.requests = now :: turn.ended :: o.turns.map Turn.ended
    rw [h.requests hturn.time_lt, hturn.asked, hturn.ended]
  · intro hle
    exact absurd hturn.now_lt (Nat.not_lt_of_le hle)
  · obtain ⟨s'', hanswers, hlast⟩ := h.answers
    obtain ⟨a, hnext, hs, rfl, hanswered⟩ := hturn.answered
    refine ⟨s'', ?_, hlast⟩
    show src.Answers p.frameSize s ((turn.asked, turn.answered, turn.chunk) :: o.answers) s''
    rw [hturn.asked, hanswered]
    exact .cons hnext hs hanswers
  · intro n turn' hn
    cases n with
    | zero =>
      obtain rfl : turn = turn' := Option.some.inj hn
      exact ⟨htick ▸ hturn.began, hturn.began_lt⟩
    | succ n => exact h.began n turn' hn
  · intro n turn' hn
    cases n with
    | zero =>
      obtain rfl : turn = turn' := Option.some.inj hn
      exact hturn.handsOver
    | succ n =>
      have hmark : Transfer.markAfter mark (((turn :: o.turns).take (n + 1)).flatMap Turn.pieces) =
          Transfer.markAfter mark' ((o.turns.take n).flatMap Turn.pieces) := by
        rw [List.take_succ_cons, List.flatMap_cons, Transfer.markAfter_append, ← hturn.mark]
      exact hmark ▸ h.handsOver n turn' hn
  · exact h.held
  · exact h.ends

end Step

/-- A half whose first tick is due at `due` keeps the schedule of its ticks. -/
theorem run_scheduled (src : Source σ) (out : Outflow) (p : Pacing) (limit : Nat) (s : σ) (mark : Mark) (now due : Nat)
    (tick : Nat → Nat) (htick : ∀ n, tick (n + 1) = p.clock.wake (due + n * p.cadence)) :
    Scheduled src out p.frameSize limit now tick s mark (run src out p limit s mark now due) := by
  fun_induction run src out p limit s mark now due generalizing tick with
  | case1 s mark now due phase time ending lines hturn => exact stopped_scheduled hturn (by simpa using htick 0)
  | case2 s mark now due turn time s' mark' lines hturn ih =>
    refine (take_finishes hturn).scheduled (by simpa using htick 0) (ih _ fun n => ?_)
    rw [htick (n + 1), Nat.succ_mul, Nat.add_comm (n * p.cadence), Nat.add_assoc]

/-! ### What follows from the schedule -/

/-- The turns that began to send audio by the instant `t`. -/
def audioBegun (o : Outbound) (t : Nat) : List Turn := o.begun.filter fun turn => turn.chunk ≠ [] ∧ turn.began ≤ t

/-- Behind the i-th turn and up to the j-th the source answers at once, and the connection accepts at once what is
    handed over from the i-th turn on. -/
def Prompt (o : Outbound) (i j : Nat) : Prop :=
  (∀ n turn, i < n → n ≤ j → o.begun[n]? = some turn → turn.answered = turn.asked) ∧
    ∀ n turn, i ≤ n → n < j → o.begun[n]? = some turn → turn.ended = turn.began

theorem length_filter_le_of_getElem? {α : Type} {l : List α} {P : α → Bool} {k : Nat}
    (h : ∀ n x, l[n]? = some x → P x = true → n < k) : (l.filter P).length ≤ k := by
  have hlate : (l.drop k).filter P = [] := by
    refine List.filter_eq_nil_iff.mpr fun x hx hP => ?_
    obtain ⟨n, hn⟩ := List.getElem?_of_mem hx
    rw [List.getElem?_drop] at hn
    exact absurd (h _ _ hn hP) (by omega)
  calc (l.filter P).length = ((l.take k).filter P ++ (l.drop k).filter P).length := by
        rw [← List.filter_append, List.take_append_drop]
    _ = ((l.take k).filter P).length := by rw [hlate, List.append_nil]
    _ ≤ (l.take k).length := List.length_filter_le _ _
    _ ≤ k := List.length_take_le _ _

theorem getElem?_requests {o : Outbound} {n : Nat} {turn : Turn} (hn : o.begun[n]? = some turn) :
    o.requests[n]? = some turn.asked := by
  have hfront : o.begun.map Turn.asked <+: o.requests := by
    rw [begun, requests, List.map_append]
    refine (List.prefix_append_right_inj _).mpr ?_
    cases o.phase with
    | sending turn => exact List.prefix_rfl
    | _ => exact List.nil_prefix
  obtain ⟨rest, hrest⟩ := hfront
  have hlt : n < (o.begun.map Turn.asked).length := by
    rw [List.length_map]
    exact (List.getElem?_eq_some_iff.mp hn).1
  rw [← hrest, List.getElem?_append_left hlt, List.getElem?_map, hn, Option.map_some]

/-- Behind a turn that began and was not finished no other turn begins. -/
theorem finished_of_begun_succ {o : Outbound} {n : Nat} {turn later : Turn} (hn : o.begun[n]? = some turn)
    (hlater : o.begun[n + 1]? = some later) : o.turns[n]? = some turn := by
  have hlt := (List.getElem?_eq_some_iff.mp hlater).1
  have hlast : o.phase.turn?.toList.length ≤ 1 := by
    cases o.phase.turn? with
    | none => exact Nat.zero_le 1
    | some last => exact Nat.le_refl 1
  rw [begun, List.length_append] at hlt
  rwa [begun, List.getElem?_append_left (by omega)] at hn

namespace Scheduled
variable {src : Source σ} {out : Outflow} {room limit start cadence : Nat} {tick : Nat → Nat} {s : σ} {mark : Mark}
  {o : Outbound}

theorem tick_le_began (h : Scheduled src out room limit start tick s mark o) {n : Nat} {turn : Turn}
    (hn : o.begun[n]? = some turn) : tick (n + 1) ≤ turn.began :=
  (h.began n turn hn).1 ▸ Nat.le_max_right _ _

theorem length_audioBegun_le (h : Scheduled src out room limit start tick s mark o) (hpos : 0 < cadence)
    (htick : ∀ n, start + n * cadence ≤ tick n) (t : Nat) : (o.audioBegun t).length ≤ (t - start) / cadence := by
  refine length_filter_le_of_getElem? fun n turn hn hturn => ?_
  have hbegan : turn.began ≤ t := (decide_eq_true_iff.mp hturn).2
  have hdue := Nat.le_trans (htick (n + 1)) (h.tick_le_began hn)
  have hroom : (n + 1) * cadence ≤ t - start := by omega
  exact (Nat.le_div_iff_mul_le hpos).mpr hroom

theorem start_lt (h : Scheduled src out room limit start tick s mark o) {n : Nat} {turn : Turn}
    (hn : o.begun[n]? = some turn) : start < limit := by
  refine Nat.lt_of_not_le fun hle => ?_
  obtain ⟨hturns, hphase⟩ := h.nothing hle
  rw [begun, hturns, hphase] at hn
  cases hn

theorem asked_succ (h : Scheduled src out room limit start tick s mark o) {n : Nat} {turn later : Turn}
    (hn : o.begun[n]? = some turn) (hlater : o.begun[n + 1]? = some later) : later.asked = turn.ended := by
  have hasked := getElem?_requests hlater
  rw [h.requests (h.start_lt hn), List.getElem?_cons_succ, List.getElem?_map, finished_of_begun_succ hn hlater] at hasked
  exact (Option.some.inj hasked).symm

/-- A turn that began late is made up for: the turns behind it begin at once, each as soon as the one before it,
    until their ticks come later than that. -/
theorem began_of_prompt (h : Scheduled src out room limit start tick s mark o) (hmono : ∀ m n, m ≤ n → tick m ≤ tick n)
    {i j : Nat} {stalled turn : Turn} (hij : i ≤ j) (hi : o.begun[i]? = some stalled) (hj : o.begun[j]? = some turn)
    (hp : o.Prompt i j) : turn.began = max stalled.began (tick (j + 1)) := by
  induction hij generalizing turn with
  | refl =>
    obtain rfl : stalled = turn := Option.some.inj (hi.symm.trans hj)
    exact (Nat.max_eq_left (h.tick_le_began hi)).symm
  | @step j hij ih =>
    replace hij : i ≤ j := hij
    obtain ⟨hsource, hconn⟩ := hp
    have hlt : j < o.begun.length := Nat.lt_of_succ_lt (List.getElem?_eq_some_iff.mp hj).1
    have hprev : o.begun[j]? = some o.begun[j] := List.getElem?_eq_getElem hlt
    have hbefore := ih hprev
        ⟨fun n turn hn hle => hsource n turn hn (by omega), fun n turn hle hn => hconn n turn hle (by omega)⟩
    calc turn.began = max turn.answered (tick (j + 2)) := (h.began _ _ hj).1
      _ = max o.begun[j].began (tick (j + 2)) := by
        rw [hsource _ _ (by omega) (Nat.le_refl _) hj, h.asked_succ hprev hj, hconn _ _ hij (by omega) hprev]
      _ = max stalled.began (max (tick (j + 1)) (tick (j + 2))) := by rw [hbefore, Nat.max_assoc]
      _ = max stalled.began (tick (j + 2)) := by rw [Nat.max_eq_right (hmono _ _ (by omega))]

end Scheduled
end Outbound
end CallRelay
