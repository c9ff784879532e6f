import CallRelay.Source

/-! # Silence

Zero samples without end, as many whole ones as are asked for. -/

namespace CallRelay.Silence

/-- The bytes of silence for a request. -/
def samples (room : Nat) : Bytes := List.replicate (room / 2 * 2) 0

/-- Silence answers at once. -/
def source : Source Unit where
  next _ room _ := some { delay := 0, supply := .chunk (samples room), source := () }
  dropped s _ _ _ := s

end CallRelay.Silence
