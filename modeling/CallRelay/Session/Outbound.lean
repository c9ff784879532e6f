import CallRelay.Clock.Instant
import CallRelay.Error
import CallRelay.Outflow
import CallRelay.Source
import CallRelay.Wire.Encoding

/-! # The outbound half

Outbound audio goes out in turns, one for each tick of the cadence. In a turn the source is asked for a
chunk, the tick is awaited, and the chunk is written as one audio message. A turn with an empty chunk
takes its tick and writes nothing. Ticks are due at fixed instants: one that is late is taken at once and
those behind it keep their instants. A tick that is not late is taken when the clock ends the wait for it.

The half is cut at a given instant. Whatever becomes ready at that very instant comes too late. -/

namespace CallRelay

/-- How outbound audio is cut up and paced. -/
structure Pacing where
  frameSize : Nat
  cadence : Nat
  cadence_pos : 0 < cadence
  /-- The clock that ends the waits for the ticks. -/
  clock : Clock

/-- One turn: when the source was asked and when it answered, its chunk, when the tick was taken, and the
    pieces in which the message was accepted. -/
structure Turn where
  asked : Nat
  answered : Nat
  chunk : Bytes
  began : Nat
  pieces : List (Nat × Bytes)
  deriving DecidableEq, Repr

/-- Where the half stood when it ended. -/
inductive Phase
  /-- Between two turns. -/
  | idle
  /-- The source had been asked. -/
  | asking (asked : Nat)
  /-- The source had answered with a chunk and the tick was not taken, or the chunk was not sent. -/
  | holding (asked answered : Nat) (chunk : Bytes)
  /-- The message of this turn was being written. -/
  | sending (turn : Turn)
  deriving DecidableEq, Repr

/-- Why the half ended. -/
inductive OutboundEnd
  /-- The instant given for the cut came. -/
  | cut
  /-- The source has no more audio. -/
  | exhausted
  | failed (e : RelayError)

/-- The outbound half of a session: its finished turns, where it stood at its end, and its end. -/
structure Outbound where
  turns : List Turn
  phase : Phase
  time : Nat
  ending : OutboundEnd
  lines : List (Nat × Line)

namespace Phase

/-- The pieces accepted of the unfinished message. -/
def pieces : Phase → List (Nat × Bytes)
  | sending turn => turn.pieces
  | _ => []

/-- Tells whether the bytes accepted so far are whole messages. -/
def isAligned (p : Phase) : Bool := p.pieces.isEmpty

end Phase

/-- What a turn comes to: it is finished, and the source and the connection go on from there, or the half
    ends in it. -/
inductive TurnEnd (σ : Type)
  | finished (turn : Turn) (time : Nat) (source : σ) (mark : Mark) (lines : List (Nat × Line))
  | stopped (phase : Phase) (time : Nat) (ending : OutboundEnd) (lines : List (Nat × Line))

namespace Turn

variable {σ : Type}

/-- A turn cut while its message was being written. -/
def cutShort (limit : Nat) (turn : Turn) (sent : Transfer) (lines : List (Nat × Line)) : TurnEnd σ :=
  .stopped (.sending { turn with pieces := Transfer.before limit sent.pieces }) limit .cut lines

/-- A turn whose message is handed over as told. -/
def write (limit : Nat) (turn : Turn) (sent : Transfer) (s : σ) (lines : List (Nat × Line)) : TurnEnd σ :=
  match sent.ending with
  | .done t =>
    if t < limit then .finished { turn with pieces := sent.pieces } t s sent.mark lines
    else cutShort limit turn sent lines
  | .failed t f =>
    if t < limit then .stopped (.sending { turn with pieces := sent.pieces }) t (.failed (.writeFailure f)) lines
    else cutShort limit turn sent lines
  | .stuck => cutShort limit turn sent lines

/-- A turn from its tick on. -/
def tick (out : Outflow) (limit : Nat) (mark : Mark) (turn : Turn) (s : σ) (lines : List (Nat × Line)) : TurnEnd σ :=
  if limit ≤ turn.began then .stopped (.holding turn.asked turn.answered turn.chunk) limit .cut lines
  else if turn.chunk = [] then .finished turn turn.began s mark lines
  else match encodeAudio turn.chunk with
    | .error e => .stopped (.holding turn.asked turn.answered turn.chunk) turn.began (.failed (.codec e)) lines
    | .ok wire => write limit turn (out.send mark wire turn.began) s lines

/-- A turn from the answer of the source on. -/
def answer (out : Outflow) (clock : Clock) (limit : Nat) (mark : Mark) (asked due : Nat) (a : Supplied σ) : TurnEnd σ :=
  if limit ≤ asked + a.delay then .stopped (.asking asked) limit .cut []
  else match a.supply with
    | .failed f => .stopped (.asking asked) (asked + a.delay) (.failed (.sourceFailure f)) (a.linesFrom asked)
    | .done => .stopped (.asking asked) (asked + a.delay) .exhausted (a.linesFrom asked)
    | .chunk b =>
      let turn : Turn := ⟨asked, asked + a.delay, b, max (asked + a.delay) (clock.wake due), []⟩
      tick out limit mark turn a.source (a.linesFrom asked)

/-- A whole turn. -/
def take (src : Source σ) (out : Outflow) (p : Pacing) (limit : Nat) (s : σ) (mark : Mark) (now due : Nat) : TurnEnd σ :=
  if limit ≤ now then .stopped .idle limit .cut []
  else match src.next s p.frameSize now with
    | none => .stopped (.asking now) limit .cut []
    | some a => answer out p.clock limit mark now due a

/-- A turn that is finished has taken its tick before the cut. -/
theorem began_lt_of_tick {out : Outflow} {limit : Nat} {mark mark' : Mark} {turn turn' : Turn} {s s' : σ}
    {lines lines' : List (Nat × Line)} {time : Nat}
    (h : tick out limit mark turn s lines = .finished turn' time s' mark' lines') : turn.began < limit := by
  unfold tick at h
  split at h
  · cases h
  · omega

theorem due_lt_of_take {src : Source σ} {out : Outflow} {p : Pacing} {limit : Nat} {s s' : σ} {mark mark' : Mark}
    {now due time : Nat} {turn : Turn} {lines : List (Nat × Line)}
    (h : take src out p limit s mark now due = .finished turn time s' mark' lines) : due < limit := by
  unfold take answer at h
  split at h
  · cases h
  · split at h
    · cases h
    · split at h
      · cases h
      · split at h
        · cases h
        · cases h
        · exact Nat.lt_of_le_of_lt (Nat.le_trans (p.clock.le_wake due) (Nat.le_max_right _ _)) (began_lt_of_tick h)

end Turn

namespace Outbound

/-- A half with one more turn in front, and the lines logged in it. -/
def prepend (turn : Turn) (lines : List (Nat × Line)) (later : Outbound) : Outbound :=
  { later with turns := turn :: later.turns, lines := lines ++ later.lines }

/-- The pieces accepted, each with its instant. -/
def pieces (o : Outbound) : List (Nat × Bytes) := o.turns.flatMap Turn.pieces ++ o.phase.pieces

/-- The audio of the finished turns. -/
def sent (o : Outbound) : List Bytes := (o.turns.map Turn.chunk).filter (· ≠ [])

/-- Runs the half from the instant `now`, at which the source is asked, to the cut at `limit`. The next tick
    is due at `due`, and `mark` tells what the connection has accepted. -/
def run {σ : Type} (src : Source σ) (out : Outflow) (p : Pacing) (limit : Nat) (s : σ) (mark : Mark) (now due : Nat) :
    Outbound :=
  match _turn : Turn.take src out p limit s mark now due with
  | .stopped phase time ending lines => ⟨[], phase, time, ending, lines⟩
  | .finished turn time s mark lines => prepend turn lines (run src out p limit s mark time (due + p.cadence))
termination_by limit - due
decreasing_by
  have := Turn.due_lt_of_take _turn
  have := p.cadence_pos
  omega

end Outbound
end CallRelay
