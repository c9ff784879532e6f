import CallRelay.Bytes

/-! # Lossy UTF-8

Bytes become text one character at a time. Where no character of UTF-8 stands, the longest part that
some character starts with, or else a single byte, becomes one replacement character U+FFFD. -/

namespace CallRelay.Utf8

/-- The character that stands for bytes that are not UTF-8. -/
def replacement : Char := Char.ofNat 0xfffd

/-- Tells a continuation byte. -/
def isTail (b : UInt8) : Bool := 0x80 ≤ b && b ≤ 0xbf

/-- What may follow a lead byte: the range of the second byte and the number of continuation bytes in
    all, or nothing for a byte that leads no character of several bytes. -/
def lead? (b : UInt8) : Option (UInt8 × UInt8 × Nat) :=
  if 0xc2 ≤ b && b ≤ 0xdf then some (0x80, 0xbf, 1)
  else if b == 0xe0 then some (0xa0, 0xbf, 2)
  else if b == 0xed then some (0x80, 0x9f, 2)
  else if 0xe1 ≤ b && b ≤ 0xef then some (0x80, 0xbf, 2)
  else if b == 0xf0 then some (0x90, 0xbf, 3)
  else if 0xf1 ≤ b && b ≤ 0xf3 then some (0x80, 0xbf, 3)
  else if b == 0xf4 then some (0x80, 0x8f, 3)
  else none

/-- The value bits of a lead byte of a character with `n` continuation bytes. -/
def leadBits (b : UInt8) (n : Nat) : Nat :=
  if n = 1 then b.toNat % 32 else if n = 2 then b.toNat % 16 else b.toNat % 8

/-- The code point that a lead value and continuation bytes write. -/
def codePoint (first : Nat) (tails : Bytes) : Nat :=
  tails.foldl (fun n b => n * 64 + b.toNat % 64) first

/-- The continuation bytes that belong to the lead byte before them: at most `n`, the first of them
    between `lo` and `hi`. -/
def tails (lo hi : UInt8) (n : Nat) : Bytes → Bytes
  | [] => []
  | b :: rest => if n = 0 then [] else if lo ≤ b && b ≤ hi then b :: (rest.take (n - 1)).takeWhile isTail else []

/-- The character at the front of `b :: rest` and how many bytes of `rest` it takes. -/
def front (b : UInt8) (rest : Bytes) : Char × Nat :=
  if b < 0x80 then (Char.ofNat b.toNat, 0)
  else match lead? b with
    | none => (replacement, 0)
    | some (lo, hi, n) =>
      let found := tails lo hi n rest
      if found.length = n then (Char.ofNat (codePoint (leadBits b n) found), n)
      else (replacement, found.length)

/-- The text of a string of bytes. -/
def decode : Bytes → List Char
  | [] => []
  | b :: rest => (front b rest).1 :: decode (rest.drop (front b rest).2)
termination_by b => b.length
decreasing_by simp only [List.length_drop, List.length_cons]; omega

/-- The text of a string of bytes that is UTF-8 throughout. -/
def decode? (b : Bytes) : Option String := String.fromUTF8? (ByteArray.mk b.toArray)

end CallRelay.Utf8
