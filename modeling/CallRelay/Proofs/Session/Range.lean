import CallRelay.Proofs.Session.Pace
import CallRelay.Proofs.Session.Returning

/-! # The range of the clock

The machine keeps an instant as seconds, signed and of 64 bits, and nanoseconds, and has none past the range of its seconds.
A session that starts thirty years before the end of that range finds an instant for its stop, however far ahead its
deadline is. The instant of the first tick has no such stand-in: there is one exactly if the cadence stays in the range. -/

namespace CallRelay

/-- An instant as the machine keeps it. -/
structure Reading where
  seconds : Int64
  nanos : Nat
  nanos_lt : nanos < 1000000000

namespace Reading

/-- The instant in nanoseconds. -/
def count (t : Reading) : Int := t.seconds.toInt * 1000000000 + t.nanos

/-- So many seconds more, unless there is no such number of 64 bits. -/
def more? (seconds : Int64) (n : Nat) : Option Int64 :=
  if seconds.toInt + n < 2 ^ 63 then some (Int64.ofInt (seconds.toInt + n)) else none

/-- The instant `span` later, if there is one: whole seconds and nanoseconds are added apart, and a full second of
    nanoseconds is carried. -/
def add? (t : Reading) (span : Nat) : Option Reading :=
  (more? t.seconds (span / 1000000000)).bind fun seconds =>
    if h : t.nanos + span % 1000000000 < 1000000000 then some ⟨seconds, t.nanos + span % 1000000000, h⟩
    else (more? seconds 1).map fun seconds =>
      ⟨seconds, t.nanos + span % 1000000000 - 1000000000, by have := t.nanos_lt; omega⟩

theorem toInt_of_more? {a b : Int64} {n : Nat} (h : more? a n = some b) : b.toInt = a.toInt + n := by
  have hlow := a.le_toInt
  unfold more? at h
  split at h
  · next hlt =>
    cases h
    exact Int64.toInt_ofInt_of_le (by omega) hlt
  · cases h

theorem le_of_more? {a : Int64} {n : Nat} (h : more? a n = none) : 2 ^ 63 ≤ a.toInt + n := by
  unfold more? at h
  split at h
  · cases h
  · omega

theorem count_lt (t : Reading) : t.count < Clock.bound := by
  have hseconds := t.seconds.toInt_lt
  have hnanos := t.nanos_lt
  unfold count Clock.bound
  omega

/-- Sums are exact, and there is none only past the range. -/
theorem add?_cases (t : Reading) (span : Nat) :
    (∃ u, t.add? span = some u ∧ u.count = t.count + span) ∨ t.add? span = none ∧ Clock.bound ≤ t.count + span := by
  have hnanos := t.nanos_lt
  have hdiv := Nat.div_add_mod' span 1000000000
  have hmod := Nat.mod_lt span (show 0 < 1000000000 by decide)
  unfold add?
  -- The whole seconds may leave the range, and so may the one that is carried.
  cases hmore : more? t.seconds (span / 1000000000) with
  | none =>
    have hpast := le_of_more? hmore
    refine Or.inr ⟨rfl, ?_⟩
    unfold count Clock.bound
    omega
  | some seconds =>
    have hseconds := toInt_of_more? hmore
    rw [Option.bind_some]
    split
    · refine Or.inl ⟨_, rfl, ?_⟩
      simp only [count]
      omega
    · next hcarry =>
      cases hone : more? seconds 1 with
      | none =>
        have hpast := le_of_more? hone
        refine Or.inr ⟨rfl, ?_⟩
        unfold count Clock.bound
        omega
      | some carried =>
        have hcarried := toInt_of_more? hone
        refine Or.inl ⟨_, rfl, ?_⟩
        simp only [count]
        omega

theorem isSome_add? {t : Reading} {span : Nat} : (t.add? span).isSome ↔ t.count + span < Clock.bound := by
  rcases t.add?_cases span with ⟨u, hu, hcount⟩ | ⟨hnone, hpast⟩
  · rw [hu, ← hcount]
    exact iff_of_true rfl u.count_lt
  · rw [hnone]
    exact iff_of_false nofun (by omega)

end Reading

namespace Clock

/-- The instant on a session's clock at which the machine has the instant `t`. -/
def since (c : Clock) (t : Reading) : Nat := (t.count - c.origin).toNat

/-- A session's clock has the instants that the machine has. -/
theorem add?_eq_map {c : Clock} {start : Reading} {now : Nat} (hstart : start.count = c.origin + now) (span : Nat) :
    c.add? now span = (start.add? span).map c.since := by
  rcases start.add?_cases span with ⟨t, ht, hcount⟩ | ⟨hnone, hpast⟩
  · have hlt := t.count_lt
    rw [ht, add?, if_pos (by omega), Option.map_some, since, Option.some.injEq]
    omega
  · rw [hnone, add?, if_neg (by omega)]
    rfl

end Clock

namespace Session
variable {σ κ η : Type} {s : Session} {leg : Leg σ κ η} {terms : Terms} {start : Reading}

/-- The deadline, or thirty years ahead if there is no such instant. -/
theorem deadline?_eq_map (hstart : start.count = terms.clock.origin + s.opened)
    (hfar : (start.add? Clock.farFuture).isSome) :
    terms.clock.deadline? s.opened terms.deadline =
      ((start.add? terms.deadline).or (start.add? Clock.farFuture)).map terms.clock.since := by
  obtain ⟨far, hfar⟩ := Option.isSome_iff_exists.mp hfar
  rw [Clock.deadline?, Clock.add?_eq_map hstart, Clock.add?_eq_map hstart, hfar]
  cases start.add? terms.deadline with
  | none => rfl
  | some stop => rfl

theorem run?_isSome_iff_tick (hstart : start.count = terms.clock.origin + s.opened)
    (hfar : (start.add? Clock.farFuture).isSome) :
    (s.run? leg terms).isSome ↔ (start.add? s.config.cadence).isSome := by
  rw [run?_isSome_iff, Clock.add?_eq_map hstart, Clock.add?_eq_map hstart, Option.isSome_map, Option.isSome_map]
  exact and_iff_right hfar

/-- A session that starts thirty years before the end of the range has an instant to stop at, whatever its deadline. It runs
    exactly if there is an instant for its first tick, as there is for every cadence of up to thirty years, and relays from
    that tick to that stop. -/
theorem run_in_range (s : Session) (leg : Leg σ κ η) (terms : Terms) (start : Reading)
    (hstart : start.count = terms.clock.origin + s.opened) (hfar : (start.add? Clock.farFuture).isSome) :
    ∃ stop, (start.add? terms.deadline).or (start.add? Clock.farFuture) = some stop ∧
      terms.clock.deadline? s.opened terms.deadline = some (terms.clock.since stop) ∧
      s.stop terms = ⟨terms.clock.wake (terms.clock.since stop), terms.cancel⟩ ∧
      ((s.run? leg terms).isSome ↔ (start.add? s.config.cadence).isSome) ∧
      (s.config.cadence ≤ Clock.farFuture → (s.run? leg terms).isSome) ∧
      ∀ r, s.run? leg terms = some r → ∃ tick, start.add? s.config.cadence = some tick ∧
        r.halves = s.relay leg terms.clock terms.first ((s.stop terms).instant s.opened) (terms.clock.since tick)
          (s.stop terms).reason := by
  obtain ⟨stop, hstop⟩ : ∃ stop, (start.add? terms.deadline).or (start.add? Clock.farFuture) = some stop := by
    rw [← Option.isSome_iff_exists, Option.isSome_or, hfar, Bool.or_true]
  have hdeadline := deadline?_eq_map hstart hfar
  rw [hstop, Option.map_some] at hdeadline
  have hruns : (s.run? leg terms).isSome ↔ (start.add? s.config.cadence).isSome := run?_isSome_iff_tick hstart hfar
  refine ⟨stop, hstop, hdeadline, ?_, hruns, fun hcadence => ?_, fun r hr => ?_⟩
  · rw [Session.stop, deadline?_eq_some hdeadline]
  · rw [hruns]
    rw [Reading.isSome_add?] at hfar ⊢
    omega
  · have hsome : (s.run? leg terms).isSome := Option.isSome_iff_exists.mpr ⟨r, hr⟩
    obtain ⟨tick, htick⟩ := Option.isSome_iff_exists.mp (hruns.mp hsome)
    have hdue := Clock.add?_eq_map hstart s.config.cadence
    rw [htick, Option.map_some] at hdue
    refine ⟨tick, htick, ?_⟩
    rw [add?_eq_some hdue]
    exact (run?_relays hr).1

/-! ### The longest spans -/

def epoch : Reading := ⟨0, 0, by decide⟩

def endlessTerms : Terms := { shortTerms with deadline := Span.longest }

/-- The longest deadline is past the range, and the session stops in thirty years. -/
theorem endless_runs : (quiet.run? sampleLeg endlessTerms).isSome ∧ (epoch.add? Span.longest).isNone ∧
    quiet.stop endlessTerms = ⟨Clock.farFuture, none⟩ := by
  obtain ⟨stop, -, hdeadline, hstops, -, hruns, -⟩ :=
    run_in_range quiet sampleLeg endlessTerms epoch rfl (by decide +kernel)
  have hfar : endlessTerms.clock.deadline? quiet.opened endlessTerms.deadline = some Clock.farFuture := by decide +kernel
  have hsince := Option.some.inj (hdeadline.symm.trans hfar)
  refine ⟨hruns (by decide +kernel), by decide +kernel, ?_⟩
  rw [hstops, hsince]
  decide +kernel

/-- The longest cadence is valid, and there is no instant for its first tick. -/
theorem longest_cadence_overflows : ({ cadence := Span.longest } : Config).Valid ∧ ∃ s,
    (dial ⟨[], quickLine⟩ (.repeated 7) { cadence := Span.longest } 0).ending = .opened s ∧
    (epoch.add? Clock.farFuture).isSome ∧ (epoch.add? Span.longest).isNone ∧ s.run? sampleLeg shortTerms = none := by
  obtain ⟨s, hs, hopened, hcadence⟩ : ∃ s,
      (dial ⟨[], quickLine⟩ (.repeated 7) { cadence := Span.longest } 0).ending = .opened s ∧ s.opened = 0 ∧
      s.config.cadence = Span.longest := by
    with_unfolding_all exact ⟨_, rfl, rfl, rfl⟩
  refine ⟨by decide +kernel, s, hs, ?_⟩
  have hstart : epoch.count = shortTerms.clock.origin + s.opened := by rw [hopened]; rfl
  have hfar : (epoch.add? Clock.farFuture).isSome := by decide +kernel
  have hlongest : ¬(epoch.add? s.config.cadence).isSome := by
    rw [hcadence]
    decide +kernel
  have hnone : ¬(s.run? sampleLeg shortTerms).isSome := by rwa [run?_isSome_iff_tick hstart hfar]
  exact ⟨hfar, by decide +kernel, Option.not_isSome_iff_eq_none.mp hnone⟩

end Session
end CallRelay
