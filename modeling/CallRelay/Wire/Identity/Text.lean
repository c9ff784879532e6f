import CallRelay.Uuid
import CallRelay.Wire.Identity

/-! # The text of an identity

An identity has the bytes of a UUID, and a library of UUIDs writes and reads it as text. -/

namespace CallRelay.Identity
variable {υ : Type} (lib : Uuid.Library υ)

/-- The UUID with the bytes of an identity. -/
def uuid (id : Identity) : υ := lib.ofBytes id.bytes id.length_eq

/-- The identity with the bytes of a UUID. -/
def ofUuid (u : υ) : Identity := ⟨lib.bytes u, lib.length_bytes u⟩

/-- The text of an identity. -/
def text (id : Identity) : String := lib.hyphenated (id.uuid lib)

/-- Reads an identity. -/
def ofText? (s : String) : Option Identity := (lib.parse? s).map (ofUuid lib)

/-- An identity made of random bytes. -/
def ofRandom (b : Bytes) (h : b.length = 16) : Identity := ofUuid lib (lib.ofRandom b h)

end CallRelay.Identity
