import CallRelay.Proofs.Turn
import CallRelay.Proofs.Wire.Codec

/-! # What the outbound half sends

The source is asked again and again and goes on from each of its answers. Every chunk that it yields in
time is a turn's, in order. A finished turn has sent its whole message, or nothing for an empty chunk, and
only the last, unfinished turn can have sent a part of one. -/

namespace CallRelay
variable {σ : Type}

/-- The source `s` is asked time after time for at most `room` bytes. It yields these chunks, each with the
    instant at which it was asked; asked once more, at the last instant given, it yields none before `last`. -/
inductive Source.Yields (src : Source σ) (room last : Nat) : σ → List (Nat × Bytes) → Option Nat → Prop
  | nil (s : σ) : Yields src room last s [] none
  | silent {s : σ} {t : Nat}
      (h : ∀ a b, src.next s room t = some a → a.supply = .chunk b → last ≤ t + a.delay) :
      Yields src room last s [] (some t)
  | chunk {s : σ} {t : Nat} {a : Supplied σ} {b : Bytes} {ys : List (Nat × Bytes)} {asked : Option Nat}
      (ha : src.next s room t = some a) (hs : a.supply = .chunk b) (later : Yields src room last a.source ys asked) :
      Yields src room last s ((t, b) :: ys) asked

namespace Phase

/-- The chunk of the unfinished turn, with the instant at which it was asked for. -/
def held : Phase → List (Nat × Bytes)
  | holding asked _ chunk => [(asked, chunk)]
  | sending turn => [(turn.asked, turn.chunk)]
  | _ => []

/-- When the source was asked for the answer that is awaited. -/
def asked? : Phase → Option Nat
  | asking t => some t
  | _ => none

end Phase

namespace Outbound

/-- The chunks that the source yielded, each with the instant at which it was asked for. -/
def yielded (o : Outbound) : List (Nat × Bytes) := o.turns.map (fun turn => (turn.asked, turn.chunk)) ++ o.phase.held

def chunks (o : Outbound) : List Bytes := (o.yielded.map Prod.snd).filter (· ≠ [])

/-- The turn has sent the whole message of its chunk, or nothing for an empty one. -/
def Whole (turn : Turn) : Prop :=
  turn.chunk = [] ∧ turn.pieces = [] ∨ turn.chunk ≠ [] ∧ encodeAudio turn.chunk = .ok (Transfer.bytesOf turn.pieces)

/-- The turn has sent a part of the message of its chunk. -/
def Part (turn : Turn) : Prop :=
  turn.chunk ≠ [] ∧ ∃ w, encodeAudio turn.chunk = .ok w ∧ IsCut (Transfer.bytesOf turn.pieces) w

/-- The half has sent whole messages of its first chunks, and then it may have sent a part of the next one. -/
def Framed (o : Outbound) : Prop :=
  ∃ frames, o.sent.mapM encodeAudio = .ok frames ∧
    Transfer.bytesOf o.pieces = frames.flatten ++ Transfer.bytesOf o.phase.pieces ∧
    (o.phase.pieces = [] ∨ ∃ c w, o.chunks[o.sent.length]? = some c ∧ encodeAudio c = .ok w ∧
      IsCut (Transfer.bytesOf o.phase.pieces) w)

theorem chunks_eq (o : Outbound) : o.chunks = o.sent ++ (o.phase.held.map Prod.snd).filter (· ≠ []) := by
  rw [chunks, yielded, List.map_append, List.filter_append, List.map_map]
  rfl

theorem frames_of_whole {turns : List Turn} (h : ∀ turn ∈ turns, Whole turn) :
    ∃ frames, ((turns.map Turn.chunk).filter (· ≠ [])).mapM encodeAudio = .ok frames ∧
      Transfer.bytesOf (turns.flatMap Turn.pieces) = frames.flatten := by
  induction turns with
  | nil => exact ⟨[], rfl, rfl⟩
  | cons turn turns ih =>
    obtain ⟨hturn, hturns⟩ := List.forall_mem_cons.mp h
    obtain ⟨frames, hframes, hbytes⟩ := ih hturns
    have hsplit : Transfer.bytesOf ((turn :: turns).flatMap Turn.pieces) =
        Transfer.bytesOf turn.pieces ++ Transfer.bytesOf (turns.flatMap Turn.pieces) := by
      rw [List.flatMap_cons, Transfer.bytesOf, List.flatMap_append]
      rfl
    rcases hturn with ⟨hc, hp⟩ | ⟨hc, hw⟩
    · refine ⟨frames, ?_, ?_⟩
      · rw [List.map_cons, List.filter_cons_of_neg (by simpa using hc)]
        exact hframes
      · rw [hsplit, hp, hbytes]
        rfl
    · refine ⟨Transfer.bytesOf turn.pieces :: frames, ?_, ?_⟩
      · rw [List.map_cons, List.filter_cons_of_pos (by simpa using hc), List.mapM_cons, hw, hframes]
        rfl
      · rw [hsplit, hbytes, List.flatten_cons]

/-! ### One turn -/

section Step
variable {src : Source σ} {out : Outflow} {p : Pacing} {limit : Nat} {s s' : σ} {mark mark' : Mark} {now due time : Nat}
  {turn : Turn} {phase : Phase} {ending : OutboundEnd} {lines : List (Nat × Line)}

theorem finished_whole (h : Turn.take src out p limit s mark now due = .finished turn time s' mark' lines) :
    Whole turn ∧ ∃ a, src.next s p.frameSize turn.asked = some a ∧ a.supply = .chunk turn.chunk ∧ a.source = s' := by
  have hturn := Turn.take_comesTo src out p limit s mark now due
  rw [h] at hturn
  cases hturn with
  | @chunk a b x ha hs hx =>
    cases hx with
    | empty hlim hc => exact ⟨Or.inl ⟨hc, rfl⟩, a, ha.next, hs, rfl⟩
    | @sent w x t hlim hc hw hx he ht =>
      have hd := send_delivers out mark w (max (now + a.delay) (p.clock.wake due))
      rw [hx] at hd
      refine ⟨Or.inr ⟨hc, ?_⟩, a, ha.next, hs, rfl⟩
      rw [hw, hd.bytesOf_of_done he]

theorem stopped_part (h : Turn.take src out p limit s mark now due = .stopped phase time ending lines) :
    ∀ turn, phase = .sending turn → Part turn := by
  have hturn := Turn.take_comesTo src out p limit s mark now due
  rw [h] at hturn
  rintro turn rfl
  cases hturn with
  | @chunk a b x ha hs hx =>
    cases hx with
    | @broken w x t f hlim hc hw hx he ht =>
      have hd := send_delivers out mark w (max (now + a.delay) (p.clock.wake due))
      rw [hx, he] at hd
      exact ⟨hc, w, hw, hd.isCut_of_not_done nofun⟩
    | @cut w x hlim hc hw hx he =>
      have hd := send_delivers out mark w (max (now + a.delay) (p.clock.wake due))
      rw [hx] at hd
      exact ⟨hc, w, hw, hd.before_isCut (encodeAudio_ne_nil hw) fun t ht => he t (Or.inl ht)⟩

theorem stopped_yields (h : Turn.take src out p limit s mark now due = .stopped phase time ending lines) :
    src.Yields p.frameSize time s phase.held phase.asked? := by
  have hturn := Turn.take_comesTo src out p limit s mark now due
  rw [h] at hturn
  cases hturn with
  | late hlim => exact .nil s
  | unanswered hlim ha => exact .silent fun a b hnext _ => ha a hnext
  | failed ha hs =>
    refine .silent fun a' b hnext hb => ?_
    cases ha.next.symm.trans hnext
    cases hs.symm.trans hb
  | exhausted ha hs =>
    refine .silent fun a' b hnext hb => ?_
    cases ha.next.symm.trans hnext
    cases hs.symm.trans hb
  | chunk ha hs hx => cases hx <;> exact .chunk ha.next hs (.nil _)

end Step

/-! ### The whole half -/

section Run
variable (src : Source σ) (out : Outflow) (p : Pacing) (limit : Nat) (s : σ) (mark : Mark) (now due : Nat)

theorem run_whole : ∀ turn ∈ (run src out p limit s mark now due).turns, Whole turn := by
  fun_induction run src out p limit s mark now due with
  | case1 => exact nofun
  | case2 s mark now due turn time s' mark' lines hturn ih =>
    exact List.forall_mem_cons.mpr ⟨(finished_whole hturn).1, ih⟩

theorem run_part : ∀ turn, (run src out p limit s mark now due).phase = .sending turn → Part turn := by
  fun_induction run src out p limit s mark now due with
  | case1 s mark now due phase time ending lines hturn => exact stopped_part hturn
  | case2 s mark now due turn time s' mark' lines hturn ih => exact ih

/-- The chunks are what the source yields when it is asked time after time. -/
theorem run_yields : src.Yields p.frameSize (run src out p limit s mark now due).time s
    (run src out p limit s mark now due).yielded (run src out p limit s mark now due).phase.asked? := by
  fun_induction run src out p limit s mark now due with
  | case1 s mark now due phase time ending lines hturn => exact stopped_yields hturn
  | case2 s mark now due turn time s' mark' lines hturn ih =>
    obtain ⟨-, a, ha, hs, rfl⟩ := finished_whole hturn
    exact .chunk ha hs ih

theorem run_framed : Framed (run src out p limit s mark now due) := by
  have hwhole := run_whole src out p limit s mark now due
  have hpart := run_part src out p limit s mark now due
  generalize run src out p limit s mark now due = o at hwhole hpart ⊢
  obtain ⟨frames, hframes, hbytes⟩ := frames_of_whole hwhole
  refine ⟨frames, hframes, ?_, ?_⟩
  · rw [← hbytes, pieces, Transfer.bytesOf, List.flatMap_append]
    rfl
  · cases hphase : o.phase with
    | idle => exact Or.inl rfl
    | asking => exact Or.inl rfl
    | holding => exact Or.inl rfl
    | sending turn =>
      obtain ⟨hc, w, hw, hcut⟩ := hpart turn hphase
      refine Or.inr ⟨turn.chunk, w, ?_, hw, hcut⟩
      have hheld : (o.phase.held.map Prod.snd).filter (· ≠ []) = [turn.chunk] := by
        rw [hphase]
        exact List.filter_cons_of_pos (by simpa using hc)
      rw [chunks_eq, hheld, List.getElem?_append_right (Nat.le_refl _), Nat.sub_self]
      rfl

end Run
end Outbound
end CallRelay
