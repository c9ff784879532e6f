import CallRelay.Clock.Span

/-! # The session clock

A session counts nanoseconds from the time its clock began. The machine beneath keeps instants as
signed 64-bit seconds and nanoseconds, so that instants past the end of that range do not exist. Its
timers are coarser: a wait for an instant ends on the first multiple of the grain that is not before it. -/

namespace CallRelay

/-- A session clock. -/
structure Clock where
  /-- The instant, in nanoseconds, at which its count began. -/
  origin : Int
  /-- The nanoseconds between two instants at which waits can end. -/
  grain : Nat := 1
  grain_pos : 0 < grain := by decide

namespace Clock

/-- The first instant past the range, in nanoseconds. -/
def bound : Int := 9223372036854775808 * 1000000000

/-- Thirty years of 365 days, which stand in for spans that reach past the range. -/
def farFuture : Nat := Span.ofSeconds (86400 * 365 * 30)

/-- The instant `span` after `now`, if there is one. -/
def add? (c : Clock) (now span : Nat) : Option Nat :=
  if c.origin + ((now + span : Nat) : Int) < bound then some (now + span) else none

/-- When a wait for the instant `t` ends, if it began before. -/
def wake (c : Clock) (t : Nat) : Nat := (t + (c.grain - 1)) / c.grain * c.grain

/-- No wait ends before its instant. -/
theorem le_wake (c : Clock) (t : Nat) : t ≤ c.wake t := by
  have hpos := c.grain_pos
  have hdiv := Nat.div_add_mod' (t + (c.grain - 1)) c.grain
  have hmod := Nat.mod_lt (t + (c.grain - 1)) hpos
  unfold wake
  omega

/-- A wait ends less than a grain after its instant. -/
theorem wake_lt (c : Clock) (t : Nat) : c.wake t < t + c.grain := by
  have hpos := c.grain_pos
  have hle := Nat.div_mul_le_self (t + (c.grain - 1)) c.grain
  unfold wake
  omega

theorem wake_le (c : Clock) (t : Nat) : c.wake t ≤ t + (c.grain - 1) := by
  have hpos := c.grain_pos
  have hlt := c.wake_lt t
  omega

theorem wake_mono (c : Clock) {t u : Nat} (h : t ≤ u) : c.wake t ≤ c.wake u :=
  Nat.mul_le_mul_right _ (Nat.div_le_div_right (Nat.add_le_add_right h _))

/-- A wait for an instant at which waits can end is not held up. -/
theorem wake_of_dvd (c : Clock) {t : Nat} (h : c.grain ∣ t) : c.wake t = t := by
  obtain ⟨q, rfl⟩ := h
  have hpos := c.grain_pos
  have hdiv : (c.grain * q + (c.grain - 1)) / c.grain = q := by
    rw [Nat.mul_add_div hpos, Nat.div_eq_of_lt (by omega), Nat.add_zero]
  rw [wake, hdiv, Nat.mul_comm]

/-- When a wait of at most `span` gives up. -/
def expiry (c : Clock) (now span : Nat) : Nat := c.wake ((c.add? now span).getD (now + farFuture))

theorem le_expiry (c : Clock) (now span : Nat) : now ≤ c.expiry now span := by
  unfold expiry
  refine Nat.le_trans ?_ (c.le_wake _)
  unfold add?
  split
  · exact Nat.le_add_right now span
  · exact Nat.le_add_right now farFuture

/-- The deadline of a run that starts at `now`. The stand-in for a deadline past the range has to exist
    even where it is not needed. -/
def deadline? (c : Clock) (now span : Nat) : Option Nat :=
  (c.add? now farFuture).map fun far => (c.add? now span).getD far

end Clock
end CallRelay
