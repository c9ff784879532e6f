import CallRelay.Text.Hex

/-! # UUID libraries

What identities need of a library of UUIDs, and what such a library documents of its texts. A UUID is displayed
as 32 lowercase hexadecimal digits in groups of 8, 4, 4, 4 and 12 with hyphens between them. It is read from that
layout, from the bare digits, from the layout in braces and from the layout behind `urn:uuid:`; digits and scheme
may be in either letter case. -/

namespace CallRelay.Uuid

/-- A library whose UUIDs have the type `υ`. -/
structure Library (υ : Type) where
  ofBytes (b : Bytes) (h : b.length = 16) : υ
  bytes (u : υ) : Bytes
  length_bytes (u : υ) : (bytes u).length = 16
  /-- Reads a text. -/
  parse? (s : String) : Option υ
  /-- The text that a UUID is displayed as. -/
  hyphenated (u : υ) : String
  /-- The UUID of version 4 that is made of random bytes. -/
  ofRandom (b : Bytes) (h : b.length = 16) : υ

/-- The hyphenated layout of 32 digits. -/
def hyphenate (ds : List Char) : List Char :=
  ds.take 8 ++ '-' :: ((ds.drop 8).take 4 ++ '-' :: ((ds.drop 12).take 4 ++ '-' ::
    ((ds.drop 16).take 4 ++ '-' :: ds.drop 20)))

/-- The layouts in which digits are read. -/
inductive Layout (ds : List Char) : List Char → Prop
  | bare : Layout ds ds
  | hyphenated : Layout ds (hyphenate ds)
  | braced : Layout ds ('\x7b' :: (hyphenate ds ++ ['\x7d']))
  | urn {scheme : List Char} (h : scheme.map Char.toLower = "urn:uuid:".toList) : Layout ds (scheme ++ hyphenate ds)

/-- The text is one of the layouts of digits of these sixteen bytes. -/
def Writes (s : String) (b : Bytes) : Prop := b.length = 16 ∧ ∃ ds, Layout ds s.toList ∧ Hex.toBytes? ds = some b

/-- What a library documents. -/
structure Library.Documented {υ : Type} (lib : Library υ) : Prop where
  bytes_ofBytes : ∀ b h, lib.bytes (lib.ofBytes b h) = b
  displays : ∀ u, (lib.hyphenated u).toList = hyphenate (Hex.ofBytes (lib.bytes u))
  reads : ∀ s b, Writes s b → ∃ u, lib.parse? s = some u ∧ lib.bytes u = b
  refuses : ∀ s, (∀ b, ¬Writes s b) → lib.parse? s = none

end CallRelay.Uuid
