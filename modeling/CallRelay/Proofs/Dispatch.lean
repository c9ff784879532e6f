import CallRelay.Proofs.Inbound

/-! # Dealing with the peer's messages

The inbound half is a fold over the messages of its stream. Up to the first message that ends the half,
each is handed over, audio to the sink and everything else to the handler, once and in the order of the
stream; then nothing more is. The half ends as that message says or, without one, as the stream does,
unless the sink fails before. -/

namespace CallRelay

/-- What is handed over for a message: audio to the sink, an event to the handler. -/
inductive Routed
  | audio (b : Bytes)
  | event (e : Event)
  deriving DecidableEq, Repr

namespace Message

/-- What a message that does not end the half hands over: signals with their kind and payload, errors and
    messages of unknown kind with their first byte, or 0xff without one. -/
def routed (m : Message) : Routed :=
  match m.kind with
  | .audio => .audio m.payload
  | .silence => .event (.signal .silence m.payload)
  | .dtmf => .event (.signal .dtmf m.payload)
  | _ => .event (.error ⟨m.payload.headD 0xff⟩)

end Message

/-! ### What the stream has in store -/

namespace Heard

/-- The messages in front of the end or an error. -/
def front : List Heard → List Message
  | .message m :: hs => m :: front hs
  | .ended :: _ => []
  | .failed _ :: _ => []
  | [] => []

/-- The end of the half that the end of the stream or an error brings. -/
def stop? : List Heard → Option InboundEnd
  | .message _ :: hs => stop? hs
  | .ended :: _ => some .peerClosed
  | .failed e :: _ => some (.failed e)
  | [] => none

theorem front_map_append (ms : List Message) (hs : List Heard) : front (ms.map message ++ hs) = ms ++ front hs := by
  induction ms with
  | nil => rfl
  | cons m ms ih => exact congrArg (m :: ·) ih

theorem stop?_map_append (ms : List Message) (hs : List Heard) : stop? (ms.map message ++ hs) = stop? hs := by
  induction ms with
  | nil => rfl
  | cons m ms ih => exact ih

end Heard

namespace Inflow

/-- The bytes in front of the end of the stream and of every fault. -/
def front : Inflow → Bytes
  | [] => []
  | ⟨_, .bytes b⟩ :: rest => b ++ front rest
  | ⟨_, .eof⟩ :: _ => []
  | ⟨_, .fault _⟩ :: _ => []

/-- The end of the half that comes behind them: that of the stream or a fault, if any. -/
def stop? : Inflow → Option InboundEnd
  | [] => none
  | ⟨_, .bytes _⟩ :: rest => stop? rest
  | ⟨_, .eof⟩ :: _ => some .peerClosed
  | ⟨_, .fault f⟩ :: _ => some (.failed (.readFailure f))

theorem front_answers (left : Bytes) (i : Inflow) :
    Heard.front (answers left i) = (Message.decodeAll (left ++ i.front)).1 := by
  induction i generalizing left with
  | nil =>
    have hmap := Heard.front_map_append (Message.decodeAll left).1 []
    rw [List.append_nil, Heard.front, List.append_nil] at hmap
    rw [answers, front, List.append_nil, hmap]
  | cons a rest ih =>
    obtain ⟨t, what⟩ := a
    cases what with
    | bytes b => rw [answers, front, ih, List.append_assoc]
    | eof => rw [answers, front, Heard.front_map_append, Heard.front, List.append_nil, List.append_nil]
    | fault f => rw [answers, front, Heard.front_map_append, Heard.front, List.append_nil, List.append_nil]

theorem stop?_answers (left : Bytes) (i : Inflow) : Heard.stop? (answers left i) = i.stop? := by
  induction i generalizing left with
  | nil =>
    have hmap := Heard.stop?_map_append (Message.decodeAll left).1 []
    rwa [List.append_nil] at hmap
  | cons a rest ih =>
    obtain ⟨t, what⟩ := a
    cases what with
    | bytes b => exact ih _
    | eof => exact Heard.stop?_map_append _ _
    | fault f => exact Heard.stop?_map_append _ _

end Inflow

/-! ### The hand-overs -/

namespace Inbound

/-- The hand-overs among acts, each with its instant. -/
def handovers (acts : List (Nat × InboundAct)) : List (Nat × Routed) :=
  acts.filterMap fun a => match a.2 with
    | .handed b => some (a.1, .audio b)
    | .told e _ => some (a.1, .event e)
    | _ => none

variable {κ η : Type}

/-- The sink and the handler take hand-overs one after another and become `k'` and `h'`. -/
inductive Takes (sink : Sink κ) (handler : Handler η) : κ → η → List (Nat × Routed) → κ → η → Prop
  | nil (k : κ) (h : η) : Takes sink handler k h [] k h
  | audio {k k' : κ} {h h' : η} {t : Nat} {b : Bytes} {p : Played κ} {ds : List (Nat × Routed)}
      (hw : sink.write k b t = some p) (hok : p.outcome = .ok ()) (later : Takes sink handler p.sink h ds k' h') :
      Takes sink handler k h ((t, .audio b) :: ds) k' h'
  | event {k k' : κ} {h h' : η} {t : Nat} {e : Event} {d : Handled η} {ds : List (Nat × Routed)}
      (hh : handler.handle h e t = some d) (later : Takes sink handler k d.handler ds k' h') :
      Takes sink handler k h ((t, .event e) :: ds) k' h'

/-- The sink or the handler never finishes a hand-over. -/
def Hangs (sink : Sink κ) (handler : Handler η) (k : κ) (h : η) (t : Nat) : Routed → Prop
  | .audio b => sink.write k b t = none
  | .event e => handler.handle h e t = none

/-- How the half `i` deals with what is `due`, in that order and once each, before it comes to `stop`. -/
inductive Deals (sink : Sink κ) (handler : Handler η) (k : κ) (h : η) (due : List Routed) (stop : Option InboundEnd)
    (i : Inbound) : Prop
  /-- Everything due is taken. -/
  | all (k' : κ) (h' : η) (hdue : (handovers i.acts).map Prod.snd = due)
      (htakes : Takes sink handler k h (handovers i.acts) k' h') (hend : i.ending.map Prod.snd = stop)
  /-- The sink fails on a payload, and nothing is handed over behind it. -/
  | refused (before : List (Nat × Routed)) (t : Nat) (b : Bytes) (k' : κ) (h' : η) (p : Played κ) (f : Fault)
      (hacts : handovers i.acts = before ++ [(t, .audio b)]) (hdue : (handovers i.acts).map Prod.snd <+: due)
      (htakes : Takes sink handler k h before k' h') (hw : sink.write k' b t = some p) (hf : p.outcome = .error f)
      (hend : i.ending = some (t + p.delay, .failed (.sinkFailure f)))
  /-- The sink or the handler is never done with a hand-over. -/
  | waits (before : List (Nat × Routed)) (t : Nat) (d : Routed) (k' : κ) (h' : η)
      (hacts : handovers i.acts = before ++ [(t, d)]) (hdue : (handovers i.acts).map Prod.snd <+: due)
      (htakes : Takes sink handler k h before k' h') (hhangs : Hangs sink handler k' h' t d) (hend : i.ending = none)

section Deals
variable {sink : Sink κ} {handler : Handler η} {k k₁ : κ} {h h₁ : η} {due : List Routed} {stop : Option InboundEnd}
  {i later : Inbound} {t : Nat} {d : Routed}

/-- A hand-over that is taken, in front of others. -/
theorem Deals.cons (hacts : handovers i.acts = (t, d) :: handovers later.acts) (hend : i.ending = later.ending)
    (hone : ∀ {ds k' h'}, Takes sink handler k₁ h₁ ds k' h' → Takes sink handler k h ((t, d) :: ds) k' h')
    (hl : Deals sink handler k₁ h₁ due stop later) : Deals sink handler k h (d :: due) stop i := by
  cases hl with
  | all k' h' hdue htakes hstop =>
    refine .all k' h' ?_ ?_ ?_
    · rw [hacts, List.map_cons, hdue]
    · rw [hacts]
      exact hone htakes
    · rw [hend, hstop]
  | refused before t' b k' h' p f hacts' hdue htakes hw hf hstop =>
    refine .refused ((t, d) :: before) t' b k' h' p f ?_ ?_ (hone htakes) hw hf (hend.trans hstop)
    · rw [hacts, hacts', List.cons_append]
    · rw [hacts, List.map_cons]
      exact (List.prefix_append_right_inj [d]).mpr hdue
  | waits before t' d' k' h' hacts' hdue htakes hhangs hstop =>
    refine .waits ((t, d) :: before) t' d' k' h' ?_ ?_ (hone htakes) hhangs (hend.trans hstop)
    · rw [hacts, hacts', List.cons_append]
    · rw [hacts, List.map_cons]
      exact (List.prefix_append_right_inj [d]).mpr hdue

theorem Deals.none_due (hacts : handovers i.acts = []) (hend : i.ending.map Prod.snd = stop) :
    Deals sink handler k h [] stop i :=
  .all k h (by rw [hacts]; rfl) (by rw [hacts]; exact .nil k h) hend

end Deals

/-! ### The fold -/

/-- What messages have due up to the first that ends the half. -/
def due (ms : List Message) : List Routed := (ms.takeWhile fun m => m.ending?.isNone).map Message.routed

/-- The end of the half: that of the first message that brings one, else the one given. -/
def endOf (ms : List Message) (stop : Option InboundEnd) : Option InboundEnd := (ms.findSome? Message.ending?).or stop

theorem due_cons_of_some {m : Message} {e : InboundEnd} (h : m.ending? = some e) (ms : List Message) :
    due (m :: ms) = [] := by
  rw [due, List.takeWhile_cons_of_neg (by simp [h]), List.map_nil]

theorem due_cons_of_none {m : Message} (h : m.ending? = none) (ms : List Message) : due (m :: ms) = m.routed :: due ms := by
  rw [due, List.takeWhile_cons_of_pos (by simp [h]), List.map_cons, due]

theorem endOf_cons_of_some {m : Message} {e : InboundEnd} (h : m.ending? = some e) (ms : List Message)
    (stop : Option InboundEnd) : endOf (m :: ms) stop = some e := by
  simp only [endOf, List.findSome?_cons, h, Option.some_or]

theorem endOf_cons_of_none {m : Message} (h : m.ending? = none) (ms : List Message) (stop : Option InboundEnd) :
    endOf (m :: ms) stop = endOf ms stop := by
  simp only [endOf, List.findSome?_cons, h]

theorem routed_eq_event {m : Message} (hm : m.ending? = none) (hk : m.kind ≠ .audio) : m.routed = .event (event m) := by
  unfold Message.ending? at hm
  unfold Message.routed event Message.errorCode?
  cases hkind : m.kind with
  | hangup => simp [hkind] at hm
  | identity => simp [hkind] at hm
  | silence => rfl
  | dtmf => rfl
  | audio => exact absurd hkind hk
  | error => cases m.payload <;> rfl

theorem routed_eq_audio {m : Message} (hk : m.kind = .audio) : m.routed = .audio m.payload := by
  simp only [Message.routed, hk]

section Step
variable {sink : Sink κ} {handler : Handler η} {k : κ} {h : η} {m : Message} {ms : List Message}
  {stop : Option InboundEnd} {t : Nat}

theorem deals_ending {e : InboundEnd} (hm : m.ending? = some e) :
    Deals sink handler k h (due (m :: ms)) (endOf (m :: ms) stop) ⟨[(t, .took m)], some (t, e)⟩ := by
  rw [due_cons_of_some hm, endOf_cons_of_some hm]
  exact .none_due rfl rfl

theorem deals_event_waits (hm : m.ending? = none) (hk : m.kind ≠ .audio) (hh : handler.handle h (event m) t = none) :
    Deals sink handler k h (due (m :: ms)) (endOf (m :: ms) stop) ⟨[(t, .took m), (t, .told (event m) [])], none⟩ := by
  rw [due_cons_of_none hm, routed_eq_event hm hk]
  exact .waits [] t _ k h rfl ((List.prefix_append_right_inj [_]).mpr (List.nil_prefix)) (.nil k h) hh rfl

theorem deals_event {d : Handled η} {later : Inbound} (hm : m.ending? = none) (hk : m.kind ≠ .audio)
    (hh : handler.handle h (event m) t = some d) (hl : Deals sink handler k d.handler (due ms) (endOf ms stop) later) :
    Deals sink handler k h (due (m :: ms)) (endOf (m :: ms) stop)
      (prepend [(t, .took m), (t, .told (event m) d.lines)] later) := by
  rw [due_cons_of_none hm, endOf_cons_of_none hm, routed_eq_event hm hk]
  exact .cons rfl rfl (.event hh) hl

theorem deals_audio_waits (hm : m.ending? = none) (hk : m.kind = .audio)
    (hw : sink.write k m.payload t = none) :
    Deals sink handler k h (due (m :: ms)) (endOf (m :: ms) stop) ⟨[(t, .took m), (t, .handed m.payload)], none⟩ := by
  rw [due_cons_of_none hm, routed_eq_audio hk]
  exact .waits [] t _ k h rfl ((List.prefix_append_right_inj [_]).mpr List.nil_prefix) (.nil k h) hw rfl

theorem deals_audio_refused {p : Played κ} {f : Fault} (hm : m.ending? = none) (hk : m.kind = .audio)
    (hw : sink.write k m.payload t = some p) (hf : p.outcome = .error f) :
    Deals sink handler k h (due (m :: ms)) (endOf (m :: ms) stop)
      ⟨[(t, .took m), (t, .handed m.payload), (t + p.delay, .refused m.payload f)],
        some (t + p.delay, .failed (.sinkFailure f))⟩ := by
  rw [due_cons_of_none hm, routed_eq_audio hk]
  exact .refused [] t _ k h p f rfl ((List.prefix_append_right_inj [_]).mpr List.nil_prefix) (.nil k h) hw hf rfl

theorem deals_audio {p : Played κ} {later : Inbound} (hm : m.ending? = none) (hk : m.kind = .audio)
    (hw : sink.write k m.payload t = some p) (hok : p.outcome = .ok ())
    (hl : Deals sink handler p.sink h (due ms) (endOf ms stop) later) :
    Deals sink handler k h (due (m :: ms)) (endOf (m :: ms) stop)
      (prepend [(t, .took m), (t, .handed m.payload), (t + p.delay, .played m.payload)] later) := by
  rw [due_cons_of_none hm, endOf_cons_of_none hm, routed_eq_audio hk]
  exact .cons rfl rfl (.audio hw hok) hl

end Step

theorem Runs.deals {sink : Sink κ} {handler : Handler η} {r : Reader} {k : κ} {h : η} {now : Nat}
    {acts : List (Nat × InboundAct)} {ending : Option (Nat × InboundEnd)}
    (hruns : Runs sink handler r k h now acts ending) :
    Deals sink handler k h (due (Heard.front r.answers)) (endOf (Heard.front r.answers) (Heard.stop? r.answers))
      ⟨acts, ending⟩ := by
  induction hruns with
  | waits heard =>
    rw [Reader.answers_of_next_none heard]
    exact .none_due rfl rfl
  | ranOut heard =>
    rw [Reader.answers_of_next_ended heard]
    exact .none_due rfl rfl
  | broken heard =>
    rw [Reader.answers_of_next heard nofun]
    exact .none_due rfl rfl
  | stopped heard hm =>
    rw [Reader.answers_of_next heard nofun]
    exact deals_ending hm
  | hangs heard hm hk hw =>
    rw [Reader.answers_of_next heard nofun]
    exact deals_audio_waits hm hk hw
  | refused heard hm hk hw hf =>
    rw [Reader.answers_of_next heard nofun]
    exact deals_audio_refused hm hk hw hf
  | played heard hm hk hw hok later ih =>
    rw [Reader.answers_of_next heard nofun]
    exact deals_audio hm hk hw hok ih
  | held heard hm hk hh =>
    rw [Reader.answers_of_next heard nofun]
    exact deals_event_waits hm hk hh
  | told heard hm hk hh later ih =>
    rw [Reader.answers_of_next heard nofun]
    exact deals_event hm hk hh ih

/-- The half folds over the messages in front of the end of the stream or its first fault. -/
theorem run_deals (sink : Sink κ) (handler : Handler η) (r : Reader) (k : κ) (h : η) (now : Nat) :
    Deals sink handler k h (due (Message.decodeAll (r.buffer ++ r.inflow.front)).1)
      (endOf (Message.decodeAll (r.buffer ++ r.inflow.front)).1 r.inflow.stop?) (run sink handler r k h now) := by
  rw [← Inflow.front_answers, ← Inflow.stop?_answers r.buffer]
  exact (run_runs sink handler r k h now).deals

end Inbound
end CallRelay
