import CallRelay.Source

/-! # Scripted sources

A source that hands out given chunks and faults, each from its instant on, whatever the size of the
request. -/

namespace CallRelay

/-- The entries still to hand out. -/
abbrev Script := List (Nat × Except Fault Bytes)

namespace Script

/-- The answer to a request; behind the last entry there is no more audio. -/
def next (s : Script) (_room now : Nat) : Option (Supplied Script) :=
  match s with
  | [] => some { delay := 0, supply := .done, source := [] }
  | (t, .ok b) :: rest => some { delay := t - now, supply := .chunk b, source := rest }
  | (t, .error f) :: rest => some { delay := t - now, supply := .failed f, source := rest }

/-- A script answers when its next entry is due. -/
def source : Source Script where
  next := next
  dropped s _ _ _ := s

end Script
end CallRelay
