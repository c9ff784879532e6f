import CallRelay.Proofs.Reassembly
import CallRelay.Proofs.Timely
import CallRelay.Session.Inbound

/-! # The course of the inbound half

The half takes one thing from its stream after another. A message that brings an end stops it, audio is handed to the
sink and everything else to the handler, and the half goes on when they are done. What holds of the half whatever the
stream, the sink and the handler do is told by induction on this course. -/

namespace CallRelay

/-- The end of the half that a message brings: a hangup, an identity, audio that is not whole samples. -/
def Message.ending? (m : Message) : Option InboundEnd :=
  match m.kind with
  | .hangup => some .peerHangup
  | .identity => some (.failed Inbound.lateIdentity)
  | .audio => if m.payload.length % 2 = 0 then none else some (.failed (Inbound.oddAudio m.payload.length))
  | _ => none

theorem Message.ending?_of_audio {m : Message} (hk : m.kind = .audio) : m.ending? = none ↔ m.payload.length % 2 = 0 := by
  simp only [ending?, hk]
  split
  · next heven => exact iff_of_true rfl heven
  · next hodd => exact iff_of_false nofun hodd

namespace Inbound
variable {κ η : Type}

/-- Everything that the half can come to from `now` on, with the sink in state `k` and the handler in state `h`: its acts,
    and its end if there is one. -/
inductive Runs (sink : Sink κ) (handler : Handler η) :
    Reader → κ → η → Nat → List (Nat × InboundAct) → Option (Nat × InboundEnd) → Prop
  /-- Nothing more is heard. -/
  | waits {r : Reader} {k : κ} {h : η} {now : Nat} (heard : (r.next now none).2 = none) :
      Runs sink handler r k h now [] none
  | ranOut {r r' : Reader} {k : κ} {h : η} {now t : Nat} (heard : r.next now none = (r', some (t, .ended))) :
      Runs sink handler r k h now [(t, .ranOut r'.buffer)] (some (t, .peerClosed))
  | broken {r r' : Reader} {k : κ} {h : η} {now t : Nat} {e : RelayError}
      (heard : r.next now none = (r', some (t, .failed e))) : Runs sink handler r k h now [] (some (t, .failed e))
  | stopped {r r' : Reader} {k : κ} {h : η} {now t : Nat} {m : Message} {e : InboundEnd}
      (heard : r.next now none = (r', some (t, .message m))) (hm : m.ending? = some e) :
      Runs sink handler r k h now [(t, .took m)] (some (t, e))
  /-- The sink is never done with a payload. -/
  | hangs {r r' : Reader} {k : κ} {h : η} {now t : Nat} {m : Message}
      (heard : r.next now none = (r', some (t, .message m))) (hm : m.ending? = none) (hk : m.kind = .audio)
      (hw : sink.write k m.payload t = none) :
      Runs sink handler r k h now [(t, .took m), (t, .handed m.payload)] none
  | refused {r r' : Reader} {k : κ} {h : η} {now t : Nat} {m : Message} {p : Played κ} {f : Fault}
      (heard : r.next now none = (r', some (t, .message m))) (hm : m.ending? = none) (hk : m.kind = .audio)
      (hw : sink.write k m.payload t = some p) (hf : p.outcome = .error f) :
      Runs sink handler r k h now [(t, .took m), (t, .handed m.payload), (t + p.delay, .refused m.payload f)]
        (some (t + p.delay, .failed (.sinkFailure f)))
  | played {r r' : Reader} {k : κ} {h : η} {now t : Nat} {m : Message} {p : Played κ} {acts : List (Nat × InboundAct)}
      {ending : Option (Nat × InboundEnd)} (heard : r.next now none = (r', some (t, .message m))) (hm : m.ending? = none)
      (hk : m.kind = .audio) (hw : sink.write k m.payload t = some p) (hok : p.outcome = .ok ())
      (later : Runs sink handler r' p.sink h (t + p.delay) acts ending) :
      Runs sink handler r k h now
        ((t, .took m) :: (t, .handed m.payload) :: (t + p.delay, .played m.payload) :: acts) ending
  /-- The handler is never done with an event. -/
  | held {r r' : Reader} {k : κ} {h : η} {now t : Nat} {m : Message}
      (heard : r.next now none = (r', some (t, .message m))) (hm : m.ending? = none) (hk : m.kind ≠ .audio)
      (hh : handler.handle h (event m) t = none) :
      Runs sink handler r k h now [(t, .took m), (t, .told (event m) [])] none
  | told {r r' : Reader} {k : κ} {h : η} {now t : Nat} {m : Message} {d : Handled η} {acts : List (Nat × InboundAct)}
      {ending : Option (Nat × InboundEnd)} (heard : r.next now none = (r', some (t, .message m))) (hm : m.ending? = none)
      (hk : m.kind ≠ .audio) (hh : handler.handle h (event m) t = some d)
      (later : Runs sink handler r' k d.handler (t + d.delay) acts ending) :
      Runs sink handler r k h now ((t, .took m) :: (t, .told (event m) d.lines) :: acts) ending

theorem run_runs (sink : Sink κ) (handler : Handler η) (r : Reader) (k : κ) (h : η) (now : Nat) :
    Runs sink handler r k h now (run sink handler r k h now).acts (run sink handler r k h now).ending := by
  -- A wait, the ends, the four ways of audio, and then the three kinds of events, held or told.
  fun_induction run sink handler r k h now with
  | case1 r k h now r' heard => exact .waits (congrArg Prod.snd heard)
  | case2 r k h now r' t heard => exact .ranOut heard
  | case3 r k h now r' t e heard => exact .broken heard
  | case4 r k h now r' t m heard hk | case5 r k h now r' t m heard hk =>
    exact .stopped heard (by simp only [Message.ending?, hk])
  | case6 r k h now r' t m heard hk hodd => exact .stopped heard (by simp only [Message.ending?, hk, if_neg hodd])
  | case7 r k h now r' t m heard hk heven hw =>
    exact .hangs heard ((Message.ending?_of_audio hk).mpr (Decidable.not_not.mp heven)) hk hw
  | case8 r k h now r' t m heard hk heven p hw f hf =>
    exact .refused heard ((Message.ending?_of_audio hk).mpr (Decidable.not_not.mp heven)) hk hw hf
  | case9 r k h now r' t m heard hk heven p hw a ha ih =>
    exact .played heard ((Message.ending?_of_audio hk).mpr (Decidable.not_not.mp heven)) hk hw ha ih
  | case10 r k h now r' t m heard hk hh | case12 r k h now r' t m heard hk hh | case14 r k h now r' t m heard hk hh =>
    exact .held heard (by simp only [Message.ending?, hk]) (hk ▸ nofun) hh
  | case11 r k h now r' t m heard hk d hh ih | case13 r k h now r' t m heard hk d hh ih
  | case15 r k h now r' t m heard hk d hh ih =>
    exact .told heard (by simp only [Message.ending?, hk]) (hk ▸ nofun) hh ih

/-- The half acts in the order of time. -/
theorem Runs.timely {sink : Sink κ} {handler : Handler η} {r : Reader} {k : κ} {h : η} {now : Nat}
    {acts : List (Nat × InboundAct)} {ending : Option (Nat × InboundEnd)}
    (hruns : Runs sink handler r k h now acts ending) : Timely now acts := by
  induction hruns with
  | waits | broken => exact .nil
  | ranOut heard | stopped heard => exact .cons (Reader.le_time_of_next heard) .nil
  | hangs heard | held heard => exact .cons (Reader.le_time_of_next heard) (.cons (Nat.le_refl _) .nil)
  | refused heard =>
    exact .cons (Reader.le_time_of_next heard) (.cons (Nat.le_refl _) (.cons (Nat.le_add_right _ _) .nil))
  | played heard _ _ _ _ _ ih =>
    exact .cons (Reader.le_time_of_next heard) (.cons (Nat.le_refl _) (.cons (Nat.le_add_right _ _) ih))
  | told heard _ _ _ _ ih =>
    exact .cons (Reader.le_time_of_next heard) (.cons (Nat.le_refl _) (ih.mono (Nat.le_add_right _ _)))

theorem run_timely (sink : Sink κ) (handler : Handler η) (r : Reader) (k : κ) (h : η) (now : Nat) :
    Timely now (run sink handler r k h now).acts :=
  (run_runs sink handler r k h now).timely

end Inbound
end CallRelay
