import CallRelay.Wave.Library

/-! # Recordings

Recordings are WAVE files of 16-bit samples at 8 kHz, mono. The samples of a call travel low byte first, as they are
written in such a file. -/

namespace CallRelay.Recording
open Wave

/-- Samples in a second. -/
def sampleRate : Nat := 8000

/-- Why a file is no recording: the first of these that holds. -/
inductive Mismatch
  | sampleRate
  | channels
  | bitDepth
  deriving DecidableEq, Repr

/-- The text of a mismatch. -/
def Mismatch.message : Mismatch → String
  | .sampleRate => "Invalid sample rate"
  | .channels => "Not mono audio"
  | .bitDepth => "Invalid bit depth"

/-- Why a file could not be loaded. -/
inductive LoadFault (ε : Type)
  | missing
  | wave (fault : ε)
  | mismatch (m : Mismatch)
  deriving DecidableEq, Repr

/-- The first mismatch of a file. -/
def mismatch? (s : Spec) : Option Mismatch :=
  if s.rate ≠ sampleRate then some .sampleRate
  else if s.channels ≠ 1 then some .channels
  else if s.bits ≠ 16 ∨ s.format ≠ .whole then some .bitDepth
  else none

section Library
variable {ρ ω ε : Type} (lib : Library ρ ω ε)

/-- The samples of a recording, as they travel. -/
def load (file : Bytes) : Except (LoadFault ε) Bytes :=
  match lib.openFile file with
  | .error e => .error (.wave e)
  | .ok r =>
    match mismatch? (lib.spec r) with
    | some m => .error (.mismatch m)
    | none => (((lib.samples r).mapM id).mapError .wave).map bytesOf

/-- The file of the samples that have travelled. -/
def save (pcm : Bytes) : Except ε Bytes := do
  let fresh ← lib.create (mono sampleRate)
  let full ← (samplesOf pcm).foldlM lib.writeSample fresh
  lib.finalize full

end Library

/-- The milliseconds that so many bytes of samples last, in 64-bit arithmetic. -/
def milliseconds (bytes : Nat) : Nat := bytes * 1000 % UInt64.size / (sampleRate * 2)

end CallRelay.Recording
