import CallRelay.Clock.Instant

/-! # Waits that are given up

A wait with a limit is given up at the first instant from the limit on at which waits can end. Thirty years stand in for
a limit past the range of the clock, and a clock that has not even these gives no bound. -/

namespace CallRelay
namespace Clock
variable {c : Clock} {now t span : Nat}

/-- How long a wait of at most `span` goes on: thirty years if there is no instant as far ahead. -/
def reach (c : Clock) (now span : Nat) : Nat := if (c.add? now span).isSome then span else farFuture

/-- A wait of at most `span` from `now` on is given up at `t`, the first instant from its end on at which waits can
    end. -/
structure GivesUp (c : Clock) (now span t : Nat) : Prop where
  le : now + c.reach now span ≤ t
  lt : t < now + c.reach now span + c.grain
  dvd : c.grain ∣ t
  exact : c.grain ∣ now + c.reach now span → t = now + c.reach now span

theorem expiry_eq (c : Clock) (now span : Nat) : c.expiry now span = c.wake (now + c.reach now span) := by
  unfold expiry reach add?
  split <;> rfl

theorem expiry_givesUp (c : Clock) (now span : Nat) : c.GivesUp now span (c.expiry now span) := by
  rw [expiry_eq]
  exact ⟨c.le_wake _, c.wake_lt _, Nat.dvd_mul_left _ _, c.wake_of_dvd⟩

/-- There is one instant only at which a wait is given up. -/
theorem GivesUp.eq_expiry (h : c.GivesUp now span t) : t = c.expiry now span := by
  have hexpiry := c.expiry_givesUp now span
  obtain ⟨m, hm⟩ := h.dvd
  obtain ⟨n, hn⟩ := hexpiry.dvd
  have hle := h.le
  have hlt := h.lt
  have hle' := hexpiry.le
  have hlt' := hexpiry.lt
  rw [hm] at hle hlt ⊢
  rw [hn] at hle' hlt' ⊢
  -- Two multiples of the grain that differ are at least a grain apart.
  rcases Nat.lt_trichotomy m n with hmn | rfl | hnm
  · have hstep := Nat.mul_le_mul_left c.grain (Nat.succ_le_of_lt hmn)
    rw [Nat.mul_succ] at hstep
    omega
  · rfl
  · have hstep := Nat.mul_le_mul_left c.grain (Nat.succ_le_of_lt hnm)
    rw [Nat.mul_succ] at hstep
    omega

/-- A wait for an instant ahead at which waits can end is given up at that instant. -/
theorem givesUp_of_dvd (hle : now ≤ t) (hdvd : c.grain ∣ t)
    (hsome : (c.add? now (t - now)).isSome) : c.GivesUp now (t - now) t := by
  have hreach : now + c.reach now (t - now) = t := by
    rw [reach, if_pos hsome]
    omega
  have hpos := c.grain_pos
  constructor
  · exact Nat.le_of_eq hreach
  · omega
  · exact hdvd
  · exact fun _ => hreach.symm

/-- The clock has an instant at which a wait of at most `span` that begins at `now` is given up. -/
def Bounds (c : Clock) (now span : Nat) : Prop := (c.add? now span).isSome ∨ (c.add? now farFuture).isSome

theorem isSome_add? : (c.add? now span).isSome ↔ c.origin + ((now + span : Nat) : Int) < bound := by
  unfold add?
  split
  · next h => exact iff_of_true rfl h
  · next h => exact iff_of_false nofun h

/-- Thirty years stand in only for a longer span. -/
theorem Bounds.reach_le (h : c.Bounds now span) : c.reach now span ≤ span := by
  unfold reach
  split
  · exact Nat.le_refl span
  · next hspan =>
    have hfar := h.resolve_left hspan
    rw [isSome_add?] at hspan hfar
    omega

theorem Bounds.mono (h : c.Bounds t span) (hle : now ≤ t) : c.Bounds now span := by
  unfold Bounds at h ⊢
  simp only [isSome_add?] at h ⊢
  omega

theorem Bounds.expiry_le (h : c.Bounds now span) (hle : now ≤ t) : c.expiry now span ≤ c.wake (t + span) := by
  have hreach := h.reach_le
  rw [expiry_eq]
  exact c.wake_mono (by omega)

end Clock
end CallRelay
