import CallRelay.Wave.Samples
import Mathlib.Algebra.Group.Nat.Defs

/-! # Samples as bytes

Numbers and samples are read back from the bytes that they are written as, and samples are written back as the
bytes that they were read from, but for an odd byte at the end. -/

namespace CallRelay.Wave

/-! ### Numbers -/

@[simp] theorem length_littleBytes (width n : Nat) : (littleBytes width n).length = width := by
  induction width generalizing n with
  | zero => rfl
  | succ width ih => rw [littleBytes, List.length_cons, ih]

theorem littleEndian_littleBytes {width n : Nat} (h : n < 256 ^ width) : littleEndian (littleBytes width n) = n := by
  induction width generalizing n with
  | zero => exact (Nat.lt_one_iff.mp h).symm
  | succ width ih =>
    have hrest : n / 256 < 256 ^ width := Nat.div_lt_of_lt_mul (by rwa [Nat.pow_succ'] at h)
    rw [littleBytes, littleEndian, ih hrest, UInt8.toNat_ofNat']
    exact Nat.mod_add_div n 256

theorem littleBytes_littleEndian (b : Bytes) : littleBytes b.length (littleEndian b) = b := by
  induction b with
  | nil => rfl
  | cons x rest ih =>
    have hx := x.toNat_lt
    have hlow : UInt8.ofNat (x.toNat + 256 * littleEndian rest) = x := by
      apply UInt8.toNat_inj.mp
      rw [UInt8.toNat_ofNat']
      omega
    have hrest : (x.toNat + 256 * littleEndian rest) / 256 = littleEndian rest := by omega
    rw [List.length_cons, littleBytes, littleEndian, hlow, hrest, ih]

theorem littleEndian_lt (b : Bytes) : littleEndian b < 256 ^ b.length := by
  induction b with
  | nil => exact Nat.one_pos
  | cons x rest ih =>
    have hx := x.toNat_lt
    rw [littleEndian, List.length_cons, Nat.pow_succ]
    omega

/-! ### Samples -/

theorem sampleBytes_sampleOf (low high : UInt8) : sampleBytes (sampleOf low high) = [low, high] := by
  have hlt : littleEndian [low, high] < UInt16.size := by simpa using littleEndian_lt [low, high]
  rw [sampleBytes, sampleOf, UInt16.toUInt16_toInt16, UInt16.toNat_ofNat_of_lt' hlt]
  exact littleBytes_littleEndian [low, high]

theorem sampleBytes_eq (s : Int16) : ∃ low high, sampleBytes s = [low, high] ∧ sampleOf low high = s := by
  refine ⟨_, _, rfl, ?_⟩
  have hback : littleEndian (littleBytes 2 s.toUInt16.toNat) = s.toUInt16.toNat :=
    littleEndian_littleBytes (by simpa using s.toUInt16.toNat_lt)
  simp only [littleBytes] at hback
  rw [sampleOf, hback, UInt16.ofNat_toNat, Int16.toInt16_toUInt16]

/-- Without an odd byte at their end, bytes are written back as they were read. -/
theorem bytesOf_samplesOf (b : Bytes) : bytesOf (samplesOf b) = if b.length % 2 = 0 then b else b.dropLast := by
  fun_induction samplesOf b with
  | case1 low high rest ih =>
    have hcons : bytesOf (sampleOf low high :: samplesOf rest) = low :: high :: bytesOf (samplesOf rest) := by
      rw [bytesOf, List.flatMap_cons, sampleBytes_sampleOf]
      rfl
    rw [hcons, ih]
    have hlength : (low :: high :: rest).length % 2 = rest.length % 2 := Nat.add_mod_right rest.length 2
    rw [hlength]
    by_cases heven : rest.length % 2 = 0
    · rw [if_pos heven, if_pos heven]
    · -- The byte that is dropped stands in the rest, which is not empty.
      have hne : rest ≠ [] := by
        rintro rfl
        exact heven rfl
      rw [if_neg heven, if_neg heven, List.dropLast_cons_of_ne_nil (List.cons_ne_nil high rest),
        List.dropLast_cons_of_ne_nil hne]
  | case2 b hb =>
    match b, hb with
    | [], _ => rfl
    | [_], _ => rfl
    | low :: high :: rest, hb => exact absurd rfl (hb low high rest)

theorem samplesOf_bytesOf (samples : List Int16) : samplesOf (bytesOf samples) = samples := by
  induction samples with
  | nil => rfl
  | cons s rest ih =>
    obtain ⟨low, high, hbytes, hsample⟩ := sampleBytes_eq s
    rw [bytesOf, List.flatMap_cons, hbytes]
    change sampleOf low high :: samplesOf (bytesOf rest) = s :: rest
    rw [hsample, ih]

theorem length_bytesOf (samples : List Int16) : (bytesOf samples).length = 2 * samples.length := by
  induction samples with
  | nil => rfl
  | cons s rest ih =>
    change (sampleBytes s ++ bytesOf rest).length = _
    rw [List.length_append, ih, sampleBytes, length_littleBytes, List.length_cons]
    omega

end CallRelay.Wave
