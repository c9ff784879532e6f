import CallRelay.Uuid

/-! # A plain UUID library

UUIDs as sixteen bytes. The length of a text tells which layout it has to be in. -/

namespace CallRelay.Uuid

/-- The digits of the hyphenated layout, if every hyphen is in its place. -/
def unhyphenate? (cs : List Char) : Option (List Char) :=
  if cs[8]? = some '-' ∧ cs[13]? = some '-' ∧ cs[18]? = some '-' ∧ cs[23]? = some '-' then
    some (cs.take 8 ++ (cs.drop 9).take 4 ++ (cs.drop 14).take 4 ++ (cs.drop 19).take 4 ++ cs.drop 24)
  else none

/-- The characters behind `urn:uuid:`, in any letter case. -/
def afterUrn? (cs : List Char) : Option (List Char) :=
  if (cs.take 9).map Char.toLower = "urn:uuid:".toList then some (cs.drop 9) else none

/-- The characters between braces. -/
def betweenBraces? (cs : List Char) : Option (List Char) :=
  if cs.head? = some '\x7b' ∧ cs.getLast? = some '\x7d' then some cs.tail.dropLast else none

/-- The digits of a text, in the layout that its length tells. -/
def digitsOf? (cs : List Char) : Option (List Char) :=
  if cs.length = 32 then some cs
  else if cs.length = 36 then unhyphenate? cs
  else if cs.length = 38 then (betweenBraces? cs).bind unhyphenate?
  else if cs.length = 45 then (afterUrn? cs).bind unhyphenate?
  else none

/-- Sixteen bytes. -/
abbrev Block := { b : Bytes // b.length = 16 }

/-- The block of these bytes, if they are sixteen. -/
def Block.ofBytes? (b : Bytes) : Option Block := if h : b.length = 16 then some ⟨b, h⟩ else none

/-- Random bytes marked as version 4 of variant 2. -/
def marked (b : Bytes) : Bytes := (b.modify 6 fun x => x &&& 0x0f ||| 0x40).modify 8 fun x => x &&& 0x3f ||| 0x80

/-- The library of blocks. -/
def plain : Library Block where
  ofBytes b h := ⟨b, h⟩
  bytes u := u.1
  length_bytes u := u.2
  parse? s := (digitsOf? s.toList).bind fun ds => (Hex.toBytes? ds).bind Block.ofBytes?
  hyphenated u := String.ofList (hyphenate (Hex.ofBytes u.1))
  ofRandom b h := ⟨marked b, by simp [marked, h]⟩

end CallRelay.Uuid
