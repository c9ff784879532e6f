import CallRelay.Bytes

/-! # Hexadecimal text

Bytes are written as two lowercase digits each and read in either letter case. -/

namespace CallRelay.Hex

/-- The lowercase digit for a value below sixteen. -/
def digit (n : Nat) : Char := if n < 10 then Char.ofNat (48 + n) else Char.ofNat (87 + n)

/-- The value of a digit, in either letter case. -/
def value? (c : Char) : Option Nat :=
  if 48 ≤ c.toNat ∧ c.toNat ≤ 57 then some (c.toNat - 48)
  else if 97 ≤ c.toNat ∧ c.toNat ≤ 102 then some (c.toNat - 87)
  else if 65 ≤ c.toNat ∧ c.toNat ≤ 70 then some (c.toNat - 55)
  else none

/-- The two digits of a byte. -/
def ofByte (b : UInt8) : List Char := [digit (b.toNat / 16), digit (b.toNat % 16)]

/-- The digits of a string of bytes, two for each. -/
def ofBytes (b : Bytes) : List Char := b.flatMap ofByte

/-- Reads pairs of digits; an odd digit out or a foreign character is refused. -/
def toBytes? : List Char → Option Bytes
  | [] => some []
  | [_] => none
  | a :: b :: rest => do
    let hi ← value? a
    let lo ← value? b
    let tail ← toBytes? rest
    some (UInt8.ofNat (hi * 16 + lo) :: tail)

/-- A byte as `0x` and two digits. -/
def byteText (b : UInt8) : String := "0x" ++ String.ofList (ofByte b)

end CallRelay.Hex
