import CallRelay.Proofs.Inbound

/-! # The writes of the sink

The inbound half hands each audio message of whole samples to the sink and waits until the sink is done with it.
Nothing else happens meanwhile. Hence at any instant every write but the last has been finished without a fault, and
the last one has been too, or it is pending, or it has failed and the half has ended with it. -/

namespace CallRelay

/-- Acts that leave the sink alone. -/
def InboundAct.IsQuiet : InboundAct → Prop
  | .took m => m.kind = .audio → m.payload.length % 2 ≠ 0
  | .ranOut _ | .told _ _ => True
  | .handed _ | .played _ | .refused _ _ => False

namespace Inbound
variable {κ η : Type}

/-- The acts of the half from `now` on, with the sink in state `k`, and its end. Whenever a payload is handed over,
    the sink is called with it in the state in which the write before has left it. -/
inductive Plays (sink : Sink κ) : Nat → κ → List (Nat × InboundAct) → Option (Nat × InboundEnd) → Prop
  | waits (now : Nat) (k : κ) : Plays sink now k [] none
  | ends {now t : Nat} (k : κ) (e : InboundEnd) (ht : now ≤ t) : Plays sink now k [] (some (t, e))
  | quiet {now t : Nat} {k : κ} {act : InboundAct} {acts : List (Nat × InboundAct)} {ending : Option (Nat × InboundEnd)}
      (ht : now ≤ t) (hact : act.IsQuiet) (later : Plays sink t k acts ending) : Plays sink now k ((t, act) :: acts) ending
  | hangs {now t : Nat} {k : κ} {m : Message} (ht : now ≤ t) (hm : m.kind = .audio) (hw : sink.write k m.payload t = none) :
      Plays sink now k [(t, .took m), (t, .handed m.payload)] none
  | refused {now t : Nat} {k : κ} {m : Message} {p : Played κ} {f : Fault} (ht : now ≤ t) (hm : m.kind = .audio)
      (hw : sink.write k m.payload t = some p) (hf : p.outcome = .error f) :
      Plays sink now k [(t, .took m), (t, .handed m.payload), (t + p.delay, .refused m.payload f)]
        (some (t + p.delay, .failed (.sinkFailure f)))
  | played {now t : Nat} {k : κ} {m : Message} {p : Played κ} {acts : List (Nat × InboundAct)}
      {ending : Option (Nat × InboundEnd)} (ht : now ≤ t) (hm : m.kind = .audio) (hw : sink.write k m.payload t = some p)
      (hok : p.outcome = .ok ()) (later : Plays sink (t + p.delay) p.sink acts ending) :
      Plays sink now k ((t, .took m) :: (t, .handed m.payload) :: (t + p.delay, .played m.payload) :: acts) ending

section Plays
variable {sink : Sink κ} {now : Nat} {k : κ} {acts : List (Nat × InboundAct)} {ending : Option (Nat × InboundEnd)}

theorem Plays.mono {before : Nat} (h : Plays sink now k acts ending) (hle : before ≤ now) :
    Plays sink before k acts ending := by
  cases h with
  | waits => exact .waits before k
  | ends k e ht => exact .ends k e (Nat.le_trans hle ht)
  | quiet ht hact later => exact .quiet (Nat.le_trans hle ht) hact later
  | hangs ht hm hw => exact .hangs (Nat.le_trans hle ht) hm hw
  | refused ht hm hw hf => exact .refused (Nat.le_trans hle ht) hm hw hf
  | played ht hm hw hok later => exact .played (Nat.le_trans hle ht) hm hw hok later

theorem Plays.event {t t' : Nat} {m : Message} {e : Event} {lines : List Line} (ht : now ≤ t) (hle : t ≤ t')
    (hm : m.kind ≠ .audio) (later : Plays sink t' k acts ending) :
    Plays sink now k ((t, .took m) :: (t, .told e lines) :: acts) ending :=
  .quiet ht (fun hk => absurd hk hm) (.quiet (Nat.le_refl t) trivial (later.mono hle))

theorem Runs.plays {handler : Handler η} {r : Reader} {h : η} (hruns : Runs sink handler r k h now acts ending) :
    Plays sink now k acts ending := by
  induction hruns with
  | waits => exact .waits _ _
  | ranOut heard => exact .quiet (Reader.le_time_of_next heard) trivial (.ends _ _ (Nat.le_refl _))
  | broken heard => exact .ends _ _ (Reader.le_time_of_next heard)
  | stopped heard hm =>
    -- Audio brings an end only if it is not whole samples.
    refine .quiet (Reader.le_time_of_next heard) (fun hk heven => ?_) (.ends _ _ (Nat.le_refl _))
    cases hm.symm.trans ((Message.ending?_of_audio hk).mpr heven)
  | hangs heard hm hk hw => exact .hangs (Reader.le_time_of_next heard) hk hw
  | refused heard hm hk hw hf => exact .refused (Reader.le_time_of_next heard) hk hw hf
  | played heard hm hk hw hok later ih => exact .played (Reader.le_time_of_next heard) hk hw hok ih
  | held heard hm hk hh => exact .event (Reader.le_time_of_next heard) (Nat.le_refl _) hk (.waits _ _)
  | told heard hm hk hh later ih => exact .event (Reader.le_time_of_next heard) (Nat.le_add_right _ _) hk ih

theorem run_plays (sink : Sink κ) (handler : Handler η) (r : Reader) (k : κ) (h : η) (now : Nat) :
    Plays sink now k (run sink handler r k h now).acts (run sink handler r k h now).ending :=
  (run_runs sink handler r k h now).plays

theorem Plays.le_ending (h : Plays sink now k acts ending) {t : Nat} {e : InboundEnd} (he : ending = some (t, e)) :
    now ≤ t := by
  induction h with
  | waits => cases he
  | ends k e' ht =>
    cases he
    exact ht
  | quiet ht hact later ih => exact Nat.le_trans ht (ih he)
  | hangs => cases he
  | refused ht hm hw hf =>
    cases he
    exact Nat.le_trans ht (Nat.le_add_right _ _)
  | played ht hm hw hok later ih => exact Nat.le_trans ht (Nat.le_trans (Nat.le_add_right _ _) (ih he))

theorem Plays.le_acts (h : Plays sink now k acts ending) : ∀ a ∈ acts, now ≤ a.1 := by
  induction h with
  | waits => exact nofun
  | ends => exact nofun
  | quiet ht hact later ih => exact List.forall_mem_cons.mpr ⟨ht, fun a ha => Nat.le_trans ht (ih a ha)⟩
  | hangs ht hm hw => exact List.forall_mem_cons.mpr ⟨ht, List.forall_mem_singleton.mpr ht⟩
  | @refused now t k m p f ht hm hw hf =>
    have hle := Nat.le_trans ht (Nat.le_add_right t p.delay)
    exact List.forall_mem_cons.mpr ⟨ht, List.forall_mem_cons.mpr ⟨ht, List.forall_mem_singleton.mpr hle⟩⟩
  | @played now t k m p acts ending ht hm hw hok later ih =>
    have hle := Nat.le_trans ht (Nat.le_add_right t p.delay)
    refine List.forall_mem_cons.mpr ⟨ht, List.forall_mem_cons.mpr ⟨ht, List.forall_mem_cons.mpr ⟨hle, fun a ha => ?_⟩⟩⟩
    exact Nat.le_trans hle (ih a ha)

theorem Plays.before_eq_nil (h : Plays sink now k acts ending) {limit : Nat} (hle : limit ≤ now) :
    acts.filter (·.1 < limit) = [] :=
  List.filter_eq_nil_iff.mpr fun a ha => by
    have hnow := h.le_acts a ha
    simp only [decide_eq_true_eq]
    omega

/-! ### How the writes stand -/

/-- The sink takes payloads one after another, each at its instant, and becomes `k'`. -/
inductive TakesAll (sink : Sink κ) : κ → List (Nat × Bytes) → κ → Prop
  | nil (k : κ) : TakesAll sink k [] k
  | cons {k k' : κ} {t : Nat} {b : Bytes} {p : Played κ} {l : List (Nat × Bytes)} (hw : sink.write k b t = some p)
      (hok : p.outcome = .ok ()) (later : TakesAll sink p.sink l k') : TakesAll sink k ((t, b) :: l) k'

/-- The hand-overs to the sink, each with its instant. -/
def handsOf (acts : List (Nat × InboundAct)) : List (Nat × Bytes) :=
  acts.filterMap fun a => match a.2 with | .handed b => some (a.1, b) | _ => none

/-- A sink in state `k` has taken every payload that was handed over, and every write is finished. -/
def AllTaken (sink : Sink κ) (k : κ) (acts : List (Nat × InboundAct)) : Prop :=
  ∃ k', TakesAll sink k (handsOf acts) k' ∧ (writesOf acts).map Prod.snd = (handsOf acts).map fun h => (h.2, .ok ())

/-- A sink in state `k` has taken every payload but the one that was handed over last, and every write but the last is
    finished. That one is not over before the limit, if ever. -/
inductive LastPending (sink : Sink κ) (k : κ) (limit : Nat) (acts : List (Nat × InboundAct)) : Prop
  | intro (front : List (Nat × Bytes)) (t : Nat) (b : Bytes) (k' : κ) (hhands : handsOf acts = front ++ [(t, b)])
      (htakes : TakesAll sink k front k') (hwrites : (writesOf acts).map Prod.snd = front.map fun h => (h.2, .ok ()))
      (hlast : acts.getLast? = some (t, .handed b)) (hw : ∀ p, sink.write k' b t = some p → limit ≤ t + p.delay)

theorem handedOf_eq (acts : List (Nat × InboundAct)) : handedOf acts = (handsOf acts).map Prod.snd := by
  induction acts with
  | nil => rfl
  | cons a acts ih =>
    obtain ⟨t, act⟩ := a
    cases act with
    | handed b => exact congrArg (b :: ·) ih
    | took | ranOut | played | refused | told => exact ih

section Writes
variable {limit t : Nat}

theorem getLast?_cons_of_some {α : Type} {a b : α} {l : List α} (h : l.getLast? = some b) : (a :: l).getLast? = some b := by
  rw [List.getLast?_cons, h]
  rfl

theorem IsQuiet.of_cons {act : InboundAct} (hact : act.IsQuiet) (t : Nat) (acts : List (Nat × InboundAct)) :
    writesOf ((t, act) :: acts) = writesOf acts ∧ handsOf ((t, act) :: acts) = handsOf acts := by
  cases act with
  | took | ranOut | told => exact ⟨rfl, rfl⟩
  | handed | played | refused => exact hact.elim

theorem played_of_cons (t u : Nat) (m : Message) (acts : List (Nat × InboundAct)) :
    (writesOf ((t, .took m) :: (t, .handed m.payload) :: (u, .played m.payload) :: acts)).map Prod.snd =
        (m.payload, .ok ()) :: (writesOf acts).map Prod.snd ∧
      handsOf ((t, .took m) :: (t, .handed m.payload) :: (u, .played m.payload) :: acts) = (t, m.payload) :: handsOf acts :=
  ⟨rfl, rfl⟩

theorem AllTaken.nil (sink : Sink κ) (k : κ) : AllTaken sink k [] := ⟨k, .nil k, rfl⟩

theorem AllTaken.quiet {act : InboundAct} (hact : act.IsQuiet) (h : AllTaken sink k acts) :
    AllTaken sink k ((t, act) :: acts) := by
  obtain ⟨hwritesOf, hhandsOf⟩ := IsQuiet.of_cons hact t acts
  unfold AllTaken
  rw [hwritesOf, hhandsOf]
  exact h

theorem LastPending.quiet {act : InboundAct} (hact : act.IsQuiet) (h : LastPending sink k limit acts) :
    LastPending sink k limit ((t, act) :: acts) := by
  obtain ⟨hwritesOf, hhandsOf⟩ := IsQuiet.of_cons hact t acts
  obtain ⟨front, t', b, k', hhands, htakes, hwrites, hlast, hw⟩ := h
  exact ⟨front, t', b, k', hhandsOf.trans hhands, htakes, hwritesOf ▸ hwrites, getLast?_cons_of_some hlast, hw⟩

section Write
variable {u : Nat} {m : Message} {p : Played κ}

theorem AllTaken.played (hw : sink.write k m.payload t = some p) (hok : p.outcome = .ok ())
    (h : AllTaken sink p.sink acts) :
    AllTaken sink k ((t, .took m) :: (t, .handed m.payload) :: (u, .played m.payload) :: acts) := by
  obtain ⟨hwritesOf, hhandsOf⟩ := played_of_cons t u m acts
  obtain ⟨k', htakes, hwrites⟩ := h
  unfold AllTaken
  rw [hwritesOf, hhandsOf, hwrites]
  exact ⟨k', .cons hw hok htakes, rfl⟩

theorem LastPending.played (hw : sink.write k m.payload t = some p) (hok : p.outcome = .ok ())
    (h : LastPending sink p.sink limit acts) :
    LastPending sink k limit ((t, .took m) :: (t, .handed m.payload) :: (u, .played m.payload) :: acts) := by
  obtain ⟨hwritesOf, hhandsOf⟩ := played_of_cons t u m acts
  obtain ⟨front, t', b, k', hhands, htakes, hwrites, hlast, hlate⟩ := h
  refine ⟨(t, m.payload) :: front, t', b, k', ?_, .cons hw hok htakes, ?_, ?_, hlate⟩
  · rw [hhandsOf, hhands, List.cons_append]
  · rw [hwritesOf, hwrites, List.map_cons]
  · exact getLast?_cons_of_some (getLast?_cons_of_some (getLast?_cons_of_some hlast))

end Write

theorem LastPending.mono {limit' : Nat} (h : LastPending sink k limit acts) (hle : limit' ≤ limit) :
    LastPending sink k limit' acts := by
  obtain ⟨front, t, b, k', hhands, htakes, hwrites, hlast, hw⟩ := h
  exact ⟨front, t, b, k', hhands, htakes, hwrites, hlast, fun p hp => Nat.le_trans hle (hw p hp)⟩

theorem AllTaken.length_eq (h : AllTaken sink k acts) : (writesOf acts).length = (handsOf acts).length := by
  obtain ⟨k', -, hwrites⟩ := h
  have hlength := congrArg List.length hwrites
  rwa [List.length_map, List.length_map] at hlength

theorem LastPending.length_eq (h : LastPending sink k limit acts) : (writesOf acts).length + 1 = (handsOf acts).length := by
  obtain ⟨front, t, b, k', hhands, -, hwrites, -, -⟩ := h
  have hlength := congrArg List.length hwrites
  rw [List.length_map, List.length_map] at hlength
  rw [hhands, List.length_append, hlength, List.length_singleton]

/-- A write that is not over before the limit is the last thing seen, if its beginning is seen. -/
theorem pending_of_unfinished {rest : List (Nat × InboundAct)} (m : Message) (hrest : rest.filter (·.1 < limit) = [])
    (hw : ∀ p, sink.write k m.payload t = some p → limit ≤ t + p.delay) :
    AllTaken sink k (((t, .took m) :: (t, .handed m.payload) :: rest).filter (·.1 < limit)) ∨
      LastPending sink k limit (((t, .took m) :: (t, .handed m.payload) :: rest).filter (·.1 < limit)) := by
  by_cases hlt : t < limit
  · rw [List.filter_cons_of_pos (by simpa using hlt), List.filter_cons_of_pos (by simpa using hlt), hrest]
    exact Or.inr ⟨[], t, m.payload, k, rfl, .nil k, rfl, rfl, hw⟩
  · rw [List.filter_cons_of_neg (by simpa using hlt), List.filter_cons_of_neg (by simpa using hlt), hrest]
    exact Or.inl (.nil sink k)

/-- Up to an instant at which the half has not ended no write has failed, and at most the last is pending. -/
theorem Plays.cut_short (h : Plays sink now k acts ending) (hend : ∀ t e, ending = some (t, e) → limit ≤ t) :
    AllTaken sink k (acts.filter (·.1 < limit)) ∨ LastPending sink k limit (acts.filter (·.1 < limit)) := by
  induction h with
  | waits now k => exact Or.inl (.nil sink k)
  | ends k => exact Or.inl (.nil sink k)
  | @quiet now t k act acts ending ht hact later ih =>
    by_cases hlt : t < limit
    · rw [List.filter_cons_of_pos (by simpa using hlt)]
      exact (ih hend).imp (.quiet hact) (.quiet hact)
    · rw [List.filter_cons_of_neg (by simpa using hlt), later.before_eq_nil (Nat.le_of_not_lt hlt)]
      exact Or.inl (.nil sink k)
  | hangs ht hm hw =>
    refine pending_of_unfinished _ rfl fun p hp => ?_
    cases hw.symm.trans hp
  | refused ht hm hw hf =>
    -- The half has ended with this write, so the limit stands in front of the fault.
    have hover := hend _ _ rfl
    refine pending_of_unfinished _ ?_ fun p hp => ?_
    · rw [List.filter_cons_of_neg (by simpa using hover)]
      rfl
    · cases hw.symm.trans hp
      exact hover
  | @played now t k m p acts ending ht hm hw hok later ih =>
    -- What comes behind this write is seen only if the write is.
    by_cases hover : t + p.delay < limit
    · have hlt : t < limit := Nat.lt_of_le_of_lt (Nat.le_add_right _ _) hover
      rw [List.filter_cons_of_pos (by simpa using hlt), List.filter_cons_of_pos (by simpa using hlt),
        List.filter_cons_of_pos (by simpa using hover)]
      exact (ih hend).imp (.played hw hok) (.played hw hok)
    · have hle := Nat.le_of_not_lt hover
      refine pending_of_unfinished m ?_ fun p' hp => ?_
      · rw [List.filter_cons_of_neg (by simpa using hle), later.before_eq_nil hle]
      · cases hw.symm.trans hp
        exact hle

/-- A half that has ended, and not for a fault of the sink, has finished every write. -/
theorem Plays.allTaken (h : Plays sink now k acts ending) {e : InboundEnd} (hend : ending = some (t, e))
    (he : ∀ f, e ≠ .failed (.sinkFailure f)) : AllTaken sink k acts := by
  induction h with
  | waits now k => exact .nil sink k
  | ends k => exact .nil sink k
  | quiet ht hact later ih => exact (ih hend).quiet hact
  | hangs => cases hend
  | refused ht hm hw hf =>
    cases hend
    exact absurd rfl (he _)
  | played ht hm hw hok later ih => exact (ih hend).played hw hok

end Writes
end Plays
end Inbound
end CallRelay
