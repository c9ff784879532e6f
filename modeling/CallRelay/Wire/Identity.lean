import CallRelay.Bytes

/-! # Call identities

Sixteen opaque bytes, announced once at the start of a connection. -/

namespace CallRelay

/-- The identifier of a call. -/
structure Identity where
  bytes : Bytes
  length_eq : bytes.length = 16
  deriving DecidableEq

namespace Identity

/-- An identity from exactly sixteen bytes. -/
def ofBytes? (b : Bytes) : Option Identity := if h : b.length = 16 then some ⟨b, h⟩ else none

/-- The identity of sixteen equal bytes. -/
def repeated (b : UInt8) : Identity := ⟨List.replicate 16 b, List.length_replicate⟩

/-- Identities are ordered byte by byte. -/
def order (a b : Identity) : Ordering := compare a.bytes b.bytes

/-- The version digit of an identity. -/
def version (id : Identity) : Nat := (id.bytes.getD 6 0).toNat / 16

/-- The variant bits of an identity. -/
def variant (id : Identity) : Nat := (id.bytes.getD 8 0).toNat / 64

@[simp] theorem ofBytes?_bytes (id : Identity) : ofBytes? id.bytes = some id := by
  simp [ofBytes?, id.length_eq]

theorem ofBytes?_eq_some_iff {b : Bytes} {id : Identity} : ofBytes? b = some id ↔ b = id.bytes := by
  constructor
  · intro h
    unfold ofBytes? at h
    split at h
    · cases h; rfl
    · cases h
  · rintro rfl
    exact ofBytes?_bytes id

end Identity
end CallRelay
