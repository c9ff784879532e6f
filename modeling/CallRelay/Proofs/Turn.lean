import CallRelay.Proofs.Transfer
import CallRelay.Session.Outbound

/-! # One turn of the outbound half

A turn is cut before it asks the source, while the source has not answered, before its tick or while its
message is being written; it ends the half where the source or the connection does; else it is finished. -/

namespace CallRelay
namespace Turn

section
variable {σ : Type} (out : Outflow) (limit : Nat) (mark : Mark) (turn : Turn) (s : σ) (lines : List (Nat × Line))

/-- Everything that a turn can come to from its tick on. -/
inductive Ticks : TurnEnd σ → Prop
  | late (hlim : limit ≤ turn.began) : Ticks (.stopped (.holding turn.asked turn.answered turn.chunk) limit .cut lines)
  | empty (hlim : turn.began < limit) (hc : turn.chunk = []) : Ticks (.finished turn turn.began s mark lines)
  | tooLong {e : CodecFault} (hlim : turn.began < limit) (hc : turn.chunk ≠ []) (hw : encodeAudio turn.chunk = .error e) :
      Ticks (.stopped (.holding turn.asked turn.answered turn.chunk) turn.began (.failed (.codec e)) lines)
  | sent {w : Bytes} {x : Transfer} {t : Nat} (hlim : turn.began < limit) (hc : turn.chunk ≠ [])
      (hw : encodeAudio turn.chunk = .ok w) (hx : out.send mark w turn.began = x) (he : x.ending = .done t)
      (ht : t < limit) : Ticks (.finished { turn with pieces := x.pieces } t s x.mark lines)
  | broken {w : Bytes} {x : Transfer} {t : Nat} {f : Fault} (hlim : turn.began < limit) (hc : turn.chunk ≠ [])
      (hw : encodeAudio turn.chunk = .ok w) (hx : out.send mark w turn.began = x) (he : x.ending = .failed t f)
      (ht : t < limit) :
      Ticks (.stopped (.sending { turn with pieces := x.pieces }) t (.failed (.writeFailure f)) lines)
  | cut {w : Bytes} {x : Transfer} (hlim : turn.began < limit) (hc : turn.chunk ≠ [])
      (hw : encodeAudio turn.chunk = .ok w) (hx : out.send mark w turn.began = x)
      (he : ∀ t, (x.ending = .done t ∨ ∃ f, x.ending = .failed t f) → limit ≤ t) :
      Ticks (.stopped (.sending { turn with pieces := Transfer.before limit x.pieces }) limit .cut lines)

theorem tick_ticks : Ticks out limit mark turn s lines (tick out limit mark turn s lines) := by
  unfold tick
  split
  · next hlim => exact .late hlim
  · next hlim =>
    have hlim := Nat.lt_of_not_le hlim
    split
    · next hc => exact .empty hlim hc
    · next hc =>
      split
      · next e hw => exact .tooLong hlim hc hw
      · next w hw =>
        unfold write cutShort
        split
        · next t he =>
          split
          · next ht => exact .sent hlim hc hw rfl he ht
          · next ht =>
            refine .cut hlim hc hw rfl fun t' ht' => ?_
            rcases ht' with ht' | ⟨f, ht'⟩ <;> cases he.symm.trans ht'
            exact Nat.le_of_not_lt ht
        · next t f he =>
          split
          · next ht => exact .broken hlim hc hw rfl he ht
          · next ht =>
            refine .cut hlim hc hw rfl fun t' ht' => ?_
            rcases ht' with ht' | ⟨f, ht'⟩ <;> cases he.symm.trans ht'
            exact Nat.le_of_not_lt ht
        · next he =>
          refine .cut hlim hc hw rfl fun t' ht' => ?_
          rcases ht' with ht' | ⟨f, ht'⟩ <;> cases he.symm.trans ht'

end

section
variable {σ : Type} (src : Source σ) (out : Outflow) (p : Pacing) (limit : Nat) (s : σ) (mark : Mark) (now due : Nat)

/-- The source is asked before the cut and answers before it. -/
structure Answered (a : Supplied σ) : Prop where
  asked : now < limit
  next : src.next s p.frameSize now = some a
  answered : now + a.delay < limit

/-- Everything that a turn can come to. -/
inductive ComesTo : TurnEnd σ → Prop
  | late (hlim : limit ≤ now) : ComesTo (.stopped .idle limit .cut [])
  | unanswered (hlim : now < limit) (ha : ∀ a, src.next s p.frameSize now = some a → limit ≤ now + a.delay) :
      ComesTo (.stopped (.asking now) limit .cut [])
  | failed {a : Supplied σ} {f : Fault} (ha : Answered src p limit s now a) (hs : a.supply = .failed f) :
      ComesTo (.stopped (.asking now) (now + a.delay) (.failed (.sourceFailure f)) (a.linesFrom now))
  | exhausted {a : Supplied σ} (ha : Answered src p limit s now a) (hs : a.supply = .done) :
      ComesTo (.stopped (.asking now) (now + a.delay) .exhausted (a.linesFrom now))
  | chunk {a : Supplied σ} {b : Bytes} {x : TurnEnd σ} (ha : Answered src p limit s now a) (hs : a.supply = .chunk b)
      (hx : Ticks out limit mark ⟨now, now + a.delay, b, max (now + a.delay) (p.clock.wake due), []⟩ a.source
        (a.linesFrom now) x) : ComesTo x

theorem take_comesTo : ComesTo src out p limit s mark now due (take src out p limit s mark now due) := by
  unfold take
  split
  · next hlim => exact .late hlim
  · next hlim =>
    have hlim := Nat.lt_of_not_le hlim
    split
    · next hnext =>
      refine .unanswered hlim fun a ha => ?_
      cases hnext.symm.trans ha
    · next a hnext =>
      unfold answer
      split
      · next hlate =>
        refine .unanswered hlim fun a' ha' => ?_
        cases hnext.symm.trans ha'
        exact hlate
      · next hlate =>
        have ha : Answered src p limit s now a := ⟨hlim, hnext, Nat.lt_of_not_le hlate⟩
        split
        · next f hs => exact .failed ha hs
        · next hs => exact .exhausted ha hs
        · next b hs => exact .chunk ha hs (tick_ticks _ _ _ _ _ _)

end
end Turn
end CallRelay
