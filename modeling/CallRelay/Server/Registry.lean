import CallRelay.Net.Address
import CallRelay.Wire.Identity

/-! # The registry of calls

The calls in progress by their identity. Callers choose their identities, so that a second call may come
with the identity of a first: it takes over the entry, and the first call is then no longer registered. -/

namespace CallRelay

/-- A registered call: its number, its peer, and when it was registered. -/
structure Entry where
  call : Nat
  peer : Address
  started : Nat
  deriving DecidableEq, Repr

/-- Entries by identity, one for each. -/
structure Registry where
  entries : List (Identity × Entry) := []
  deriving DecidableEq

namespace Registry

/-- The entry of an identity. -/
def get? (r : Registry) (id : Identity) : Option Entry := (r.entries.find? (·.1 = id)).map Prod.snd

/-- The number of entries. -/
def size (r : Registry) : Nat := r.entries.length

/-- The identities with an entry. -/
def identities (r : Registry) : List Identity := r.entries.map Prod.fst

/-- The registry without the entry of an identity. -/
def erase (r : Registry) (id : Identity) : Registry := ⟨r.entries.filter (·.1 ≠ id)⟩

/-- Puts the entry of an identity in place of any other. -/
def insert (r : Registry) (id : Identity) (e : Entry) : Registry := ⟨(id, e) :: (r.erase id).entries⟩

/-- Removes the entry of an identity if it belongs to the given peer. -/
def eraseOf (r : Registry) (id : Identity) (peer : Address) : Registry :=
  if (r.get? id).any (·.peer = peer) then r.erase id else r

theorem get?_insert (r : Registry) (id : Identity) (e : Entry) : (r.insert id e).get? id = some e := by
  simp [get?, insert]

theorem get?_erase_self (r : Registry) (id : Identity) : (r.erase id).get? id = none := by
  simp only [get?, erase, Option.map_eq_none_iff, List.find?_eq_none, List.mem_filter]
  rintro x ⟨-, h⟩
  simpa using h

theorem get?_erase_of_ne (r : Registry) {id other : Identity} (h : other ≠ id) :
    (r.erase id).get? other = r.get? other := by
  simp only [get?, erase, List.find?_filter]
  congr 1
  congr 1
  funext x
  by_cases hx : x.1 = other
  · simp [hx, h]
  · simp [hx]

theorem get?_insert_of_ne (r : Registry) {id other : Identity} (e : Entry) (h : other ≠ id) :
    (r.insert id e).get? other = r.get? other := by
  rw [← get?_erase_of_ne r h]
  simp [get?, insert, Ne.symm h]

theorem get?_eraseOf (r : Registry) (id other : Identity) (peer : Address) : (r.eraseOf id peer).get? other =
    if other = id ∧ (r.get? id).any (·.peer = peer) then none else r.get? other := by
  unfold eraseOf
  split
  · next hany =>
    split
    · next h => rw [h.1, get?_erase_self]
    · next h => exact get?_erase_of_ne r fun heq => h ⟨heq, hany⟩
  · next hany => rw [if_neg fun h => hany h.2]

theorem mem_identities {r : Registry} {id : Identity} {e : Entry} (h : r.get? id = some e) : id ∈ r.identities := by
  obtain ⟨p, hp, -⟩ := Option.map_eq_some_iff.mp h
  have hid := List.find?_some hp
  exact List.mem_map.mpr ⟨p, List.mem_of_find?_eq_some hp, of_decide_eq_true hid⟩

end Registry
end CallRelay
