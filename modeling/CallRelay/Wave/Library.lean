import CallRelay.Wave.Samples

/-! # Libraries for WAVE files

What recordings need of a library of WAVE files, and what is relied on of it: it writes the samples of one
channel behind a canonical header, and it reads back such a file. A file is a `RIFF` chunk that holds a chunk
`fmt `, which tells how samples are written, and a chunk `data` with the samples. -/

namespace CallRelay.Wave

/-- Whether samples are whole numbers or floating-point numbers. -/
inductive SampleFormat
  | whole
  | floating
  deriving DecidableEq, Repr

/-- How the samples of a file are written. -/
structure Spec where
  channels : Nat
  rate : Nat
  bits : Nat
  format : SampleFormat
  deriving DecidableEq, Repr

/-- The samples of one channel, in 16-bit whole numbers. -/
def mono (rate : Nat) : Spec := ⟨1, rate, 16, .whole⟩

/-- A library with readers `ρ`, writers `ω` and faults `ε`. -/
structure Library (ρ ω ε : Type) where
  /-- Opens a file with this content. -/
  openFile (file : Bytes) : Except ε ρ
  spec (r : ρ) : Spec
  /-- The samples, read as 16-bit numbers one after another. -/
  samples (r : ρ) : List (Except ε Int16)
  create (spec : Spec) : Except ε ω
  writeSample (w : ω) (sample : Int16) : Except ε ω
  /-- The content of the file that has been written. -/
  finalize (w : ω) : Except ε Bytes

/-! ### Canonical files -/

/-- The tag `RIFF`. -/
def riffTag : Bytes := [0x52, 0x49, 0x46, 0x46]

/-- The tag `WAVE`. -/
def waveTag : Bytes := [0x57, 0x41, 0x56, 0x45]

/-- The tag `fmt `. -/
def formatTag : Bytes := [0x66, 0x6d, 0x74, 0x20]

/-- The tag `data`. -/
def dataTag : Bytes := [0x64, 0x61, 0x74, 0x61]

/-- A chunk with its size. -/
def chunk (tag body : Bytes) : Bytes := tag ++ littleBytes 4 body.length ++ body

/-- The format chunk of the samples of one channel, without its tag and size. -/
def formatFields (rate : Nat) : Bytes :=
  littleBytes 2 1 ++ littleBytes 2 1 ++ littleBytes 4 rate ++ littleBytes 4 (rate * 2) ++ littleBytes 2 2 ++
    littleBytes 2 16

/-- The file of the samples of one channel. -/
def canonical (rate : Nat) (samples : List Int16) : Bytes :=
  chunk riffTag (waveTag ++ (chunk formatTag (formatFields rate) ++ chunk dataTag (bytesOf samples)))

/-- So many bytes of samples, and the headers with them, have a size that four bytes can write. -/
def Fits (size : Nat) : Prop := 36 + size < UInt32.size

instance (size : Nat) : Decidable (Fits size) := inferInstanceAs (Decidable (36 + size < UInt32.size))

/-- What is relied on of a library at a sample rate. -/
structure Library.Canonical {ρ ω ε : Type} (lib : Library ρ ω ε) (rate : Nat) : Prop where
  writes : ∀ samples : List Int16, Fits (2 * samples.length) → ∃ fresh full, lib.create (mono rate) = .ok fresh ∧
    samples.foldlM lib.writeSample fresh = .ok full ∧ lib.finalize full = .ok (canonical rate samples)
  reads : ∀ samples : List Int16, Fits (2 * samples.length) → ∃ r, lib.openFile (canonical rate samples) = .ok r ∧
    lib.spec r = mono rate ∧ lib.samples r = samples.map .ok

end CallRelay.Wave
