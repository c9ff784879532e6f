import CallRelay.Proofs.Uuid
import CallRelay.Proofs.Uuid.Plain
import CallRelay.Wire.Identity.Text

/-! # Identities as text

With a library that does what it documents, an identity is read from its own text and from three others that are made
of it, each in any letter case. Every other text is refused. -/

namespace CallRelay.Identity
open Uuid
variable {υ : Type} {lib : Library υ} {id : Identity} {s : String}

/-! ### Digits -/

/-- The 32 lowercase digits of an identity. -/
def digits (id : Identity) : List Char := Hex.ofBytes id.bytes

theorem length_digits (id : Identity) : id.digits.length = 32 := length_ofBytes id.length_eq

theorem map_toLower_digits (id : Identity) : id.digits.map Char.toLower = id.digits := Hex.map_toLower_ofBytes id.bytes

theorem digits_eq (id : Identity) :
    id.digits = id.bytes.flatMap fun b => [Nat.digitChar (b.toNat / 16), Nat.digitChar (b.toNat % 16)] := by
  refine List.flatMap_congr fun b _ => ?_
  have hb := b.toNat_lt
  rw [Hex.ofByte, Hex.digit_eq (by omega), Hex.digit_eq (by omega)]

theorem hyphen_not_mem_digits (id : Identity) : '-' ∉ id.digits := by
  intro h
  obtain ⟨n, hn, heq⟩ := Hex.mem_ofBytes h
  revert n
  decide

theorem mem_digits {c : Char} (h : c ∈ id.digits) : c ∈ "0123456789abcdef".toList := by
  obtain ⟨n, hn, rfl⟩ := Hex.mem_ofBytes h
  clear h
  revert n
  decide

/-! ### The text of an identity -/

/-- The texts in lower case from which an identity is read. -/
def spellings (lib : Library υ) (id : Identity) : List String :=
  [String.ofList ((id.text lib).toList.filter (· ≠ '-')), id.text lib, "\x7b" ++ id.text lib ++ "\x7d",
    "urn:uuid:" ++ id.text lib]

section Documented
variable (hlib : lib.Documented)
include hlib

theorem toList_text (id : Identity) : (id.text lib).toList = hyphenate id.digits := by
  rw [text, hlib.displays, uuid, hlib.bytes_ofBytes]
  rfl

theorem length_text (id : Identity) : (id.text lib).length = 36 := by
  rw [← String.length_toList, toList_text hlib, length_hyphenate id.length_digits]

theorem mem_text {c : Char} (h : c ∈ (id.text lib).toList) : c = '-' ∨ c ∈ "0123456789abcdef".toList := by
  rw [toList_text hlib] at h
  exact (mem_hyphenate h).imp_right mem_digits

theorem toLower_text (id : Identity) : (id.text lib).toLower = id.text lib := by
  rw [← String.toList_inj, Hex.toList_toLower, toList_text hlib, map_hyphenate, map_toLower_digits]

theorem mem_spellings_iff : s ∈ id.spellings lib ↔ s.toList ∈ [id.digits, hyphenate id.digits,
    '\x7b' :: (hyphenate id.digits ++ ['\x7d']), "urn:uuid:".toList ++ hyphenate id.digits] := by
  have hspellings : (id.spellings lib).map String.toList = [id.digits, hyphenate id.digits,
      '\x7b' :: (hyphenate id.digits ++ ['\x7d']), "urn:uuid:".toList ++ hyphenate id.digits] := by
    simp only [spellings, toList_text hlib, filter_hyphenate id.length_digits id.hyphen_not_mem_digits, List.map_cons,
      List.map_nil, String.toList_ofList, String.toList_append, List.append_assoc]
    rfl
  rw [← hspellings, List.mem_map_of_injective fun _ _ => String.toList_inj.mp]

/-! ### Reading -/

/-- An identity is read from the layouts of its digits, in whatever letter case. -/
theorem ofText?_eq_some_iff_layout : ofText? lib s = some id ↔ Layout id.digits (s.toList.map Char.toLower) := by
  have hread : ofText? lib s = some id ↔ ∃ u, lib.parse? s = some u ∧ lib.bytes u = id.bytes := by
    rw [ofText?, Option.map_eq_some_iff]
    refine exists_congr fun u => and_congr_right fun _ => ?_
    rw [ofUuid, Identity.mk.injEq]
  rw [hread, hlib.parse?_iff, writes_iff, and_iff_right id.length_eq]
  rfl

theorem ofText?_eq_some_iff : ofText? lib s = some id ↔ s.toLower ∈ id.spellings lib := by
  rw [ofText?_eq_some_iff_layout hlib, mem_spellings_iff hlib, Hex.toList_toLower]
  have hlower := map_toLower_idem s.toList
  generalize s.toList.map Char.toLower = cs at hlower ⊢
  constructor
  · intro h
    cases h with
    | bare => simp
    | hyphenated => simp
    | braced => simp
    | urn hscheme =>
      rw [List.map_append, hscheme, map_hyphenate, map_toLower_digits] at hlower
      simp [← hlower]
  · intro h
    simp only [List.mem_cons, List.not_mem_nil, or_false] at h
    rcases h with rfl | rfl | rfl | rfl
    · exact .bare
    · exact .hyphenated
    · exact .braced
    · exact .urn rfl

theorem ofText?_text (id : Identity) : ofText? lib (id.text lib) = some id := by
  rw [ofText?_eq_some_iff hlib, toLower_text hlib]
  simp [spellings]

theorem ofText?_eq_none_iff : ofText? lib s = none ↔ ∀ id : Identity, s.toLower ∉ id.spellings lib := by
  rw [Option.eq_none_iff_forall_ne_some]
  exact forall_congr' fun id => not_congr (ofText?_eq_some_iff hlib)

theorem text_inj {a b : Identity} : a.text lib = b.text lib ↔ a.bytes = b.bytes := by
  constructor
  · intro h
    have hread := ofText?_text hlib a
    rw [h, ofText?_text hlib, Option.some.injEq] at hread
    rw [hread]
  · intro h
    rw [← String.toList_inj, toList_text hlib, toList_text hlib, digits, digits, h]

theorem lt_of_mem_text {c : Char} (h : c ∈ (id.text lib).toList) : c.toNat < 128 := by
  have hdigits : ∀ x ∈ "0123456789abcdef".toList, x.toNat < 128 := by simp
  rcases mem_text hlib h with rfl | hc
  · decide
  · exact hdigits c hc

theorem lt_of_mem_spellings : ∀ s ∈ id.spellings lib, ∀ c ∈ s.toList, c.toNat < 128 := by
  have htext : ∀ c ∈ (id.text lib).toList, c.toNat < 128 := fun _ => lt_of_mem_text hlib
  have hopen : ∀ c ∈ "\x7b".toList, c.toNat < 128 := by simp
  have hclose : ∀ c ∈ "\x7d".toList, c.toNat < 128 := by simp
  have hscheme : ∀ c ∈ "urn:uuid:".toList, c.toNat < 128 := by simp
  simp only [spellings, List.forall_mem_cons, String.toList_ofList, String.toList_append, List.forall_mem_append]
  exact ⟨fun c hc => htext c (List.mem_filter.mp hc).1, htext, ⟨⟨hopen, htext⟩, hclose⟩, ⟨hscheme, htext⟩, nofun⟩

/-- What is read is ASCII throughout, so that characters of several bytes are refused. -/
theorem ascii_of_ofText? (h : ofText? lib s = some id) {c : Char} (hc : c ∈ s.toList) : c.toNat < 128 := by
  have hlower : c.toLower ∈ s.toLower.toList := by
    rw [Hex.toList_toLower]
    exact List.mem_map_of_mem hc
  have hlt := lt_of_mem_spellings hlib _ ((ofText?_eq_some_iff hlib).mp h) _ hlower
  rw [Hex.toNat_toLower] at hlt
  split at hlt <;> omega

end Documented

/-- The text of an identity is read back in every variant, nothing else is read, and different identities have
    different texts. -/
theorem text_spells (hlib : lib.Documented) :
    (∀ id : Identity, (id.text lib).length = 36 ∧
      (∀ c ∈ (id.text lib).toList, c = '-' ∨ c ∈ "0123456789abcdef".toList) ∧
      Hyphenated (id.text lib).toList
        (id.bytes.flatMap fun b => [Nat.digitChar (b.toNat / 16), Nat.digitChar (b.toNat % 16)]) ∧
      ofText? lib (id.text lib) = some id) ∧
    (∀ s id, ofText? lib s = some id ↔ s.toLower ∈ id.spellings lib) ∧
    (∀ s, ofText? lib s = none ↔ ∀ id : Identity, s.toLower ∉ id.spellings lib) ∧
    (∀ s, ofText? lib s = none ∨ ∀ c ∈ s.toList, c.toNat < 128) ∧
    ∀ a b : Identity, a.text lib = b.text lib ↔ a.bytes = b.bytes := by
  refine ⟨fun id => ⟨length_text hlib id, fun _ => mem_text hlib, ?_, ofText?_text hlib id⟩,
    fun _ _ => ofText?_eq_some_iff hlib, fun _ => ofText?_eq_none_iff hlib, fun s => ?_, fun _ _ => text_inj hlib⟩
  · rw [toList_text hlib, ← digits_eq]
    exact hyphenate_hyphenated id.length_digits
  · cases hs : ofText? lib s with
    | none => exact Or.inl rfl
    | some id => exact Or.inr fun _ => ascii_of_ofText? hlib hs

/-! ### A sample -/

/-- The bytes `40 32 5e` and so on. -/
def sample : Identity :=
  ⟨[0x40, 0x32, 0x5e, 0xc2, 0x5e, 0xfd, 0x4b, 0xd3, 0x80, 0x5f, 0x53, 0x57, 0x6e, 0x58, 0x1d, 0x13], rfl⟩

theorem sample_spelled : plain.Documented ∧ sample.text plain = "40325ec2-5efd-4bd3-805f-53576e581d13" ∧
    ofText? plain "Urn:UUID:40325EC2-5efd-4Bd3-805F-53576e581d13" = some sample ∧
    ofText? plain "\x7b40325ec2-5efd-4bd3-805f-53576e581d13\x7d" = some sample ∧
    ofText? plain "40325ec25efd4bd3805f53576e581D13" = some sample ∧
    ofText? plain "40325ec2-5efd-4bd3-805f-53576e581dé" = none := by
  obtain ⟨-, hread, -, hascii, -⟩ := text_spells plain_documented
  have hspelled : ∀ {s : String}, s.toList.map Char.toLower ∈ [sample.digits, hyphenate sample.digits,
      '\x7b' :: (hyphenate sample.digits ++ ['\x7d']), "urn:uuid:".toList ++ hyphenate sample.digits] →
      ofText? plain s = some sample := by
    intro s hs
    rw [hread, mem_spellings_iff plain_documented, Hex.toList_toLower]
    exact hs
  have hdigits : sample.digits = "40325ec25efd4bd3805f53576e581d13".toList := by
    simp [digits, sample, Hex.ofBytes, Hex.ofByte, Hex.digit]
  refine ⟨plain_documented, ?_, hspelled ?_, hspelled ?_, hspelled ?_, ?_⟩
  · rw [← String.toList_inj, toList_text plain_documented, hdigits]
    simp [hyphenate]
  · simp [hdigits, hyphenate]
  · simp [hdigits, hyphenate]
  · simp [hdigits, hyphenate]
  · refine (hascii _).resolve_right fun h => ?_
    have hlast := h 'é' (by simp)
    revert hlast
    decide

end CallRelay.Identity
