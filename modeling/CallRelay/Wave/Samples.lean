import CallRelay.Bytes

/-! # Samples

Numbers are written low byte first. A sample is a signed 16-bit number and takes two bytes. -/

namespace CallRelay.Wave

/-- The number in bytes, low byte first. -/
def littleEndian : Bytes → Nat
  | [] => 0
  | b :: rest => b.toNat + 256 * littleEndian rest

/-- A number in so many bytes, low byte first. -/
def littleBytes : Nat → Nat → Bytes
  | 0, _ => []
  | width + 1, n => UInt8.ofNat n :: littleBytes width (n / 256)

/-- The 16-bit sample in a low and a high byte. -/
def sampleOf (low high : UInt8) : Int16 := (UInt16.ofNat (littleEndian [low, high])).toInt16

/-- The two bytes of a 16-bit sample. -/
def sampleBytes (sample : Int16) : Bytes := littleBytes 2 sample.toUInt16.toNat

/-- The 16-bit samples in bytes; an odd byte at their end is none. -/
def samplesOf : Bytes → List Int16
  | low :: high :: rest => sampleOf low high :: samplesOf rest
  | _ => []

/-- The bytes of 16-bit samples. -/
def bytesOf (samples : List Int16) : Bytes := samples.flatMap sampleBytes

end CallRelay.Wave
