import CallRelay.Wave.Library

/-! # A plain library for WAVE files

The chunk `data` has to come behind the chunk `fmt `. A `fact` chunk is taken to be four bytes long, and any
other chunk is skipped. Of the files that are read, those of 16-bit whole numbers have samples; files of one
channel are written. -/

namespace CallRelay.Wave

/-- How the samples of a file are written, and the bytes that each takes. -/
structure Layout extends Spec where
  width : Nat
  deriving DecidableEq, Repr

/-- Why a file is no WAVE file that can be read. -/
inductive WaveFault
  /-- The file ends too early. -/
  | truncated
  /-- A tag, a size or a field is wrong. -/
  | malformed
  /-- The samples are encoded in a way that is not supported. -/
  | unsupported
  deriving DecidableEq, Repr

/-- The tag `fact`. -/
def factTag : Bytes := [0x66, 0x61, 0x63, 0x74]

/-- The number in the `width` bytes from `start` on. -/
def field (b : Bytes) (start width : Nat) : Nat := littleEndian ((b.drop start).take width)

/-- The sub-format of whole numbers in an extensible layout. -/
def wholeGuid : Bytes := [0x01, 0, 0, 0, 0, 0, 0x10, 0, 0x80, 0, 0, 0xaa, 0, 0x38, 0x9b, 0x71]

/-- The sub-format of floating-point numbers in an extensible layout. -/
def floatingGuid : Bytes := [0x03, 0, 0, 0, 0, 0, 0x10, 0, 0x80, 0, 0, 0xaa, 0, 0x38, 0x9b, 0x71]

/-- The fields that every layout has: the format tag and the layout of whole numbers. -/
def baseLayout (b : Bytes) : Except WaveFault (Nat × Layout) :=
  let channels := field b 2 2
  let rate := field b 4 4
  let byteRate := field b 8 4
  let align := field b 12 2
  let bits := field b 14 2
  if b.length < 16 then .error .truncated
  else if channels = 0 then .error .malformed
  else if align / channels * 8 < bits ∨ UInt16.size ≤ align / channels * 8 then .error .malformed
  else if align * rate ≠ byteRate then .error .malformed
  else if bits % 8 ≠ 0 ∨ bits = 0 then .error .malformed
  else .ok (field b 0 2, ⟨⟨channels, rate, bits, .whole⟩, align / channels⟩)

/-- The layout of an extensible format chunk behind its common fields. -/
def extensible (b : Bytes) (base : Layout) : Except WaveFault Layout :=
  if b.length < 40 then .error .truncated
  else if field b 16 2 ≠ 22 then .error .malformed
  else
    let bits := if field b 18 2 = 0 then base.bits else field b 18 2
    let guid := (b.drop 24).take 16
    if guid = wholeGuid then .ok { base with bits }
    else if guid = floatingGuid then .ok { base with bits, format := .floating }
    else .error .unsupported

/-- The sample sizes that a format chunk of whole numbers may have, if it is longer than sixteen bytes. -/
def plainBits : List Nat := [8, 16, 24]

/-- The layout in a format chunk of the given size at the front of `b`, and the bytes that the chunk takes. An
    extensible layout takes forty bytes, even if its size says more. -/
def layout (size : Nat) (b : Bytes) : Except WaveFault (Layout × Nat) :=
  if size < 16 then .error .malformed
  else (baseLayout b).bind fun (code, base) =>
    if code = 1 then
      if size ≠ 16 ∧ size ≠ 18 ∧ size ≠ 40 then .error .malformed
      else if b.length < size then .error .truncated
      else if size ≠ 16 ∧ base.bits ∉ plainBits then .error .malformed
      else .ok (base, size)
    else if code = 3 then
      if size ≠ 16 ∧ size ≠ 18 then .error .malformed
      else if b.length < size then .error .truncated
      else if size = 18 ∧ field b 16 2 ≠ 0 then .error .malformed
      else if base.bits ≠ 32 then .error .malformed
      else .ok ({ base with format := .floating }, size)
    else if code = 0xfffe then
      if size < 40 then .error .malformed else (extensible b base).map (·, 40)
    else .error .unsupported

/-- The layout, the announced size of the data, and what follows, from the chunks of a file. -/
def chunks (found : Option Layout) (b : Bytes) : Except WaveFault (Layout × Nat × Bytes) :=
  if _short : b.length < 8 then .error .truncated
  else
    let size := field b 4 4
    let body := b.drop 8
    if b.take 4 = formatTag then
      match layout size body with
      | .error e => .error e
      | .ok (l, taken) => chunks (some l) (body.drop taken)
    else if b.take 4 = dataTag then
      match found with
      | none => .error .malformed
      | some l => .ok (l, size, body)
    else if b.take 4 = factTag then chunks found (body.drop 4)
    else if body.length < size then .error .truncated
    else chunks found (body.drop size)
termination_by b.length
decreasing_by all_goals simp only [List.length_drop]; omega

/-- A file: its layout, the announced size of its data, and the bytes from there on. -/
structure File where
  layout : Layout
  size : Nat
  data : Bytes

/-- Reads the header of a file. The data has to be whole samples for every channel. -/
def ofBytes (b : Bytes) : Except WaveFault File :=
  if b.length < 12 then .error .truncated
  else if b.take 4 ≠ riffTag then .error .malformed
  else if (b.drop 8).take 4 ≠ waveTag then .error .malformed
  else (chunks none (b.drop 12)).bind fun (l, size, data) =>
    if size % l.width ≠ 0 then .error .malformed
    else if size / l.width % l.channels ≠ 0 then .error .malformed
    else .ok ⟨l, size, data⟩

/-- The 16-bit samples of a file. -/
def File.samples (f : File) : Except WaveFault (List Int16) :=
  if f.size = 0 then .ok []
  else if f.layout.format = .floating ∨ f.layout.bits ≠ 16 ∨ f.layout.width ≠ 2 then .error .unsupported
  else if f.data.length < f.size then .error .truncated
  else .ok (samplesOf (f.data.take f.size))

/-- A file that is being written: the samples so far, the last one first. -/
structure Writer where
  rate : Nat
  reversed : List Int16 := []

/-- The library of files of this module. -/
def plain : Library File Writer WaveFault where
  openFile := ofBytes
  spec f := f.layout.toSpec
  samples f := match f.samples with
    | .ok samples => samples.map .ok
    | .error e => [.error e]
  create spec := if spec = mono spec.rate then .ok { rate := spec.rate } else .error .unsupported
  writeSample w sample := .ok { w with reversed := sample :: w.reversed }
  finalize w := .ok (canonical w.rate w.reversed.reverse)

end CallRelay.Wave
