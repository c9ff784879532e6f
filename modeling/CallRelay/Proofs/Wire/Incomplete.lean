import CallRelay.Proofs.Wire.Codec

/-! # Messages cut short

No message can be read from the front of a byte string exactly as long as bytes are wanting, first of the header and
then of the payload that the header announces. The fault tells how many there are and so how many more make up the
message. What has been read stays as it is, whatever comes behind it. -/

namespace CallRelay
namespace Message
variable {buf more : Bytes} {n expected got : Nat}

/-! ### The length that a header announces -/

/-- The payload length that the header at the front of a byte string announces, if it is there. -/
def announced? : Bytes → Option Nat
  | _ :: hi :: lo :: _ => some (wordValue hi lo)
  | _ => none

theorem announced?_eq_none_iff : announced? buf = none ↔ buf.length < headerLength := by
  unfold announced? headerLength
  split
  · simp
  · next hshort =>
    refine iff_of_true rfl (Nat.lt_of_not_le fun hle => ?_)
    match buf, hle with
    | k :: hi :: lo :: rest, _ => exact hshort k hi lo rest rfl

/-- The length stands in the two bytes behind the kind, the high one first. -/
theorem announced?_eq_some_iff : announced? buf = some n ↔
    ∃ hi lo, buf[1]? = some hi ∧ buf[2]? = some lo ∧ n = hi.toNat * 256 + lo.toNat := by
  unfold announced?
  split
  · next k hi lo rest =>
    constructor
    · rintro ⟨⟩
      exact ⟨hi, lo, rfl, rfl, rfl⟩
    · rintro ⟨hi', lo', ⟨⟩, ⟨⟩, rfl⟩
      rfl
  · next hshort =>
    refine iff_of_false nofun ?_
    rintro ⟨hi, lo, -, hlo, -⟩
    match buf, hlo with
    | k :: hi' :: lo' :: rest, _ => exact hshort k hi' lo' rest rfl

theorem announced?_append (h : announced? buf = some n) (more : Bytes) : announced? (buf ++ more) = some n := by
  unfold announced? at h
  split at h
  · exact h
  · cases h

/-! ### What is read -/

theorem decode_of_no_header (h : announced? buf = none) : decode buf = .error (.incompleteHeader buf.length) := by
  unfold announced? at h
  split at h
  · cases h
  · next hshort =>
    unfold decode
    split
    · exact absurd rfl (hshort _ _ _ _)
    · rfl

theorem decode_of_short (h : announced? buf = some n) (hlen : buf.length < headerLength + n) :
    decode buf = .error (.incompleteBody n (buf.length - headerLength)) := by
  unfold announced? at h
  split at h
  · next k hi lo rest =>
    cases h
    simp only [headerLength, List.length_cons] at hlen
    have hall : rest.take (wordValue hi lo) = rest := List.take_of_length_le (by omega)
    simp only [decode, hall, headerLength, List.length_cons]
    exact dif_neg (by omega)
  · cases h

theorem decode_of_whole (h : announced? buf = some n) (hlen : headerLength + n ≤ buf.length) :
    ∃ m, decode buf = .ok (m, headerLength + n) := by
  unfold announced? at h
  split at h
  · next k hi lo rest =>
    cases h
    simp only [headerLength, List.length_cons] at hlen
    exact ⟨_, dif_pos (List.length_take_of_le (by omega))⟩
  · cases h

/-! ### When bytes are wanting -/

/-- Reading finds the header wanting, or the payload wanting, or a message. -/
theorem decode_cases (buf : Bytes) :
    announced? buf = none ∧ decode buf = .error (.incompleteHeader buf.length) ∨
    ∃ n, announced? buf = some n ∧
      (buf.length < headerLength + n ∧ decode buf = .error (.incompleteBody n (buf.length - headerLength)) ∨
        headerLength + n ≤ buf.length ∧ ∃ m, decode buf = .ok (m, headerLength + n)) := by
  cases h : announced? buf with
  | none => exact Or.inl ⟨rfl, decode_of_no_header h⟩
  | some n =>
    refine Or.inr ⟨n, rfl, ?_⟩
    rcases Nat.lt_or_ge buf.length (headerLength + n) with hlt | hle
    · exact Or.inl ⟨hlt, decode_of_short h hlt⟩
    · exact Or.inr ⟨hle, decode_of_whole h hle⟩

theorem decode_eq_incompleteHeader_iff :
    decode buf = .error (.incompleteHeader got) ↔ buf.length < headerLength ∧ got = buf.length := by
  rw [← announced?_eq_none_iff]
  rcases decode_cases buf with ⟨hnone, hd⟩ | ⟨n, hsome, ⟨-, hd⟩ | ⟨-, m, hd⟩⟩
  · simp [hnone, hd, eq_comm]
  · simp [hsome, hd]
  · simp [hsome, hd]

theorem decode_eq_incompleteBody_iff : decode buf = .error (.incompleteBody expected got) ↔
    announced? buf = some expected ∧ got = buf.length - headerLength ∧ got < expected := by
  rcases decode_cases buf with ⟨hnone, hd⟩ | ⟨n, hsome, ⟨hlt, hd⟩ | ⟨hle, m, hd⟩⟩
  · simp [hnone, hd]
  · have hheader : ¬buf.length < headerLength := by simp [← announced?_eq_none_iff, hsome]
    rw [hsome, hd]
    constructor
    · rintro ⟨⟩
      exact ⟨rfl, rfl, by omega⟩
    · rintro ⟨⟨⟩, rfl, -⟩
      rfl
  · rw [hsome, hd]
    refine iff_of_false nofun ?_
    rintro ⟨⟨⟩, rfl, hlt⟩
    omega

/-- A payload of which bytes are wanting is there once so many have come, and not before. -/
theorem decode_append_of_incompleteBody (h : decode buf = .error (.incompleteBody expected got)) (more : Bytes) :
    ((∃ m n, decode (buf ++ more) = .ok (m, n)) ↔ expected - got ≤ more.length) ∧
      (more.length < expected - got → decode (buf ++ more) = .error (.incompleteBody expected (got + more.length))) := by
  obtain ⟨hannounced, rfl, hlt⟩ := decode_eq_incompleteBody_iff.mp h
  have hheader : ¬buf.length < headerLength := by simp [← announced?_eq_none_iff, hannounced]
  have hlonger := announced?_append hannounced more
  have hlength : (buf ++ more).length = buf.length + more.length := List.length_append
  have hshort : more.length < expected - (buf.length - headerLength) →
      decode (buf ++ more) = .error (.incompleteBody expected (buf.length - headerLength + more.length)) := by
    intro hmore
    rw [decode_of_short hlonger (by omega), hlength, Nat.sub_add_comm (Nat.le_of_not_lt hheader)]
  refine ⟨⟨fun ⟨m, n, hm⟩ => Nat.le_of_not_lt fun hmore => ?_, fun hmore => ?_⟩, hshort⟩
  · cases hm.symm.trans (hshort hmore)
  · obtain ⟨m, hm⟩ := decode_of_whole hlonger (by omega)
    exact ⟨m, _, hm⟩

theorem decode_append_of_incompleteHeader (h : decode buf = .error (.incompleteHeader got))
    (hmore : more.length < headerLength - got) : decode (buf ++ more) = .error (.incompleteHeader (got + more.length)) := by
  obtain ⟨-, rfl⟩ := decode_eq_incompleteHeader_iff.mp h
  rw [decode_eq_incompleteHeader_iff, List.length_append]
  exact ⟨by omega, rfl⟩

/-- Reading wants bytes exactly when there are too few, and tells how many there are and how many there have to be. It
    never fails otherwise, and what it has read does not change as more bytes come. -/
theorem decode_exact :
    (∀ buf got, decode buf = .error (.incompleteHeader got) ↔ buf.length < 3 ∧ got = buf.length) ∧
    (∀ buf expected got, decode buf = .error (.incompleteBody expected got) ↔ 3 ≤ buf.length ∧
      (∃ hi lo, buf[1]? = some hi ∧ buf[2]? = some lo ∧ expected = hi.toNat * 256 + lo.toNat) ∧
      got = buf.length - 3 ∧ got < expected) ∧
    (∀ buf more m n, decode buf = .ok (m, n) → decode (buf ++ more) = .ok (m, n)) ∧
    (∀ buf more expected got, decode buf = .error (.incompleteBody expected got) →
      ((∃ m n, decode (buf ++ more) = .ok (m, n)) ↔ expected - got ≤ more.length) ∧
      (more.length < expected - got → decode (buf ++ more) = .error (.incompleteBody expected (got + more.length)))) ∧
    (∀ buf more got, decode buf = .error (.incompleteHeader got) → more.length < 3 - got →
      decode (buf ++ more) = .error (.incompleteHeader (got + more.length))) ∧
    ∀ buf e, decode buf = .error e → (∃ got, e = .incompleteHeader got) ∨
      ∃ expected got, e = .incompleteBody expected got := by
  refine ⟨fun buf got => decode_eq_incompleteHeader_iff, fun buf expected got => ?_,
    fun buf more m n h => decode_append h more,
    fun buf more expected got h => decode_append_of_incompleteBody h more,
    fun buf more got h hmore => decode_append_of_incompleteHeader h hmore, fun buf e h => ?_⟩
  · rw [decode_eq_incompleteBody_iff, ← announced?_eq_some_iff]
    refine ⟨fun ⟨hsome, hgot, hlt⟩ => ⟨?_, hsome, hgot, hlt⟩, fun ⟨_, hsome, hgot, hlt⟩ => ⟨hsome, hgot, hlt⟩⟩
    refine Nat.le_of_not_lt fun hshort => ?_
    cases hsome.symm.trans (announced?_eq_none_iff.mpr hshort)
  · rcases decode_cases buf with ⟨-, hd⟩ | ⟨n, -, ⟨-, hd⟩ | ⟨-, m, hd⟩⟩
    · cases h.symm.trans hd
      exact Or.inl ⟨_, rfl⟩
    · cases h.symm.trans hd
      exact Or.inr ⟨_, _, rfl⟩
    · cases h.symm.trans hd

end Message
end CallRelay
