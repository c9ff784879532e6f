/-! # Unsigned numerals

A numeral is an optional plus sign followed by one or more ASCII digits, leading zeros allowed. It is
read only if its value is below the given bound; signs, blanks, separators and digits of other scripts
are refused. -/

namespace CallRelay.Numeral

/-- The value of an ASCII digit. -/
def digit? (c : Char) : Option Nat :=
  if 48 ≤ c.toNat ∧ c.toNat ≤ 57 then some (c.toNat - 48) else none

/-- Reads further digits behind the number read so far. -/
def digits? : Nat → List Char → Option Nat
  | n, [] => some n
  | n, c :: cs => (digit? c).bind fun d => digits? (10 * n + d) cs

/-- Reads one or more digits. -/
def decimal? : List Char → Option Nat
  | [] => none
  | cs => digits? 0 cs

/-- The digits behind an optional plus sign. -/
def unsigned : List Char → List Char
  | '+' :: cs => cs
  | cs => cs

/-- Reads a numeral whose value is below `bound`. -/
def read? (bound : Nat) (cs : List Char) : Option Nat :=
  (decimal? (unsigned cs)).filter (· < bound)

end CallRelay.Numeral
