/-! # Bytes

What travels on a connection, and the 16-bit words in its headers. -/

namespace CallRelay

/-- A string of bytes. -/
abbrev Bytes := List UInt8

/-- The sum of numbers. -/
def total (ns : List Nat) : Nat := ns.foldr (· + ·) 0

/-- The two bytes of a 16-bit number, high byte first. -/
def wordBytes (n : Nat) : Bytes := [UInt8.ofNat (n / 256), UInt8.ofNat n]

/-- The number that a high and a low byte write. -/
def wordValue (hi lo : UInt8) : Nat := hi.toNat * 256 + lo.toNat

theorem wordValue_lt (hi lo : UInt8) : wordValue hi lo < 65536 := by
  have h := hi.toNat_lt
  have l := lo.toNat_lt
  unfold wordValue
  omega

/-- A 16-bit number is read back from its two bytes. -/
theorem wordValue_wordBytes {n : Nat} (h : n < 65536) :
    wordValue (UInt8.ofNat (n / 256)) (UInt8.ofNat n) = n := by
  simp only [wordValue, UInt8.toNat_ofNat']
  omega

/-- Two bytes are written back from their number. -/
theorem wordBytes_wordValue (hi lo : UInt8) : wordBytes (wordValue hi lo) = [hi, lo] := by
  have l := lo.toNat_lt
  have h := hi.toNat_lt
  simp only [wordBytes, wordValue, List.cons.injEq, and_true]
  constructor <;> apply UInt8.toNat_inj.mp <;> simp only [UInt8.toNat_ofNat'] <;> omega

/-- The first `room` bytes and the rest. -/
def Bytes.splitFront (b : Bytes) (room : Nat) : Bytes × Bytes := (b.take room, b.drop room)

end CallRelay
