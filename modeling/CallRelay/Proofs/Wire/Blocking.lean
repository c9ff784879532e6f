import CallRelay.Proofs.Wire.Codec
import CallRelay.Wire.Stream

/-! # Messages from a blocking stream

A message is read by taking its bytes, in whatever pieces they come and however often a read is interrupted
between them. No read is made behind the last of them. A stream that ends inside a message is read up to its
end, and then reading fails as it does on the bytes that were there. -/

namespace CallRelay
namespace Stream

/-- A stream that brings these bytes in pieces and is interrupted before some of its reads. -/
inductive Brings : List Piece → Bytes → Prop
  | nil : Brings [] []
  | bytes {s : List Piece} {b c : Bytes} (hb : b ≠ []) (later : Brings s c) : Brings (.bytes b :: s) (b ++ c)
  | retry {s : List Piece} {f : Fault} {b : Bytes} (hf : f.kind = .interrupted) (later : Brings s b) :
      Brings (.fault f :: s) b

/-- The bytes `b` are taken from a stream, and `rest` is left of it. Each step but the last stands for one read: it is
    interrupted, it finds a part of what is missing, or it finds enough. With nothing missing there is no read. -/
inductive Takes : List Piece → Bytes → List Piece → Prop
  | nil (s : List Piece) : Takes s [] s
  | retry {s rest : List Piece} {f : Fault} {b : Bytes} (hf : f.kind = .interrupted) (hb : b ≠ [])
      (later : Takes s b rest) :
      Takes (.fault f :: s) b rest
  | piece {s rest : List Piece} {a b : Bytes} (ha : a ≠ []) (later : Takes s b rest) : Takes (.bytes a :: s) (a ++ b) rest
  | enough {s : List Piece} {b c : Bytes} (hb : b ≠ []) (hc : c ≠ []) : Takes (.bytes (b ++ c) :: s) b (.bytes c :: s)

/-! ### Filling -/

theorem fill_zero (s : List Piece) : fill 0 s = (.ok [], s) := by
  cases s with
  | nil => rfl
  | cons p s => cases p <;> simp [fill]

theorem fill_interrupted {s : List Piece} {f : Fault} {n : Nat} (hf : f.kind = .interrupted) (hn : n ≠ 0) :
    fill n (.fault f :: s) = fill n s := by
  rw [fill, if_neg hn, if_pos hf]

theorem fill_piece {s : List Piece} {a : Bytes} {n : Nat} (ha : a ≠ []) (hn : a.length ≤ n) :
    fill n (.bytes a :: s) = ((fill (n - a.length) s).1.map (a ++ ·), (fill (n - a.length) s).2) := by
  have hpos := List.length_pos_iff.mpr ha
  rw [fill, if_neg (by omega), if_neg ha, if_neg (by omega)]

theorem fill_of_takes {s rest : List Piece} {b : Bytes} (h : Takes s b rest) : fill b.length s = (.ok b, rest) := by
  induction h with
  | nil s => exact fill_zero s
  | retry hf hb later ih =>
    have hpos := List.length_pos_iff.mpr hb
    rw [fill_interrupted hf (by omega), ih]
  | @piece s rest a b ha later ih =>
    have hleft : (a ++ b).length - a.length = b.length := by
      rw [List.length_append]
      omega
    rw [fill_piece ha (by simp), hleft, ih]
    rfl
  | @enough s b c hb hc =>
    have hb := List.length_pos_iff.mpr hb
    have hc := List.length_pos_iff.mpr hc
    have hne : b ++ c ≠ [] := by simp_all
    rw [fill, if_neg (by omega), if_neg hne, if_pos (by simpa using hc), List.take_left, List.drop_left]

/-- A stream that ends too early is read up to its end. -/
theorem fill_of_brings {s : List Piece} {b : Bytes} {n : Nat} (h : Brings s b) (hn : b.length < n) :
    fill n s = (.ok b, []) := by
  induction h generalizing n with
  | nil => rfl
  | @bytes s b c hb later ih =>
    rw [List.length_append] at hn
    rw [fill_piece hb (by omega), ih (by omega)]
    rfl
  | retry hf later ih => rw [fill_interrupted hf (by omega), ih hn]

/-! ### Taking bytes -/

/-- A piece is cut behind the bytes that are taken of it. -/
theorem takes_cut {b : Bytes} (hb : b ≠ []) (e : Bytes) (s : List Piece) : ∃ mid, Takes (.bytes (b ++ e) :: s) b mid ∧
    (∀ c, Brings s c → Brings mid (e ++ c)) ∧ ∀ c rest, Takes s c rest → Takes mid (e ++ c) rest := by
  by_cases he : e = []
  · subst he
    have htakes : Takes (.bytes b :: s) (b ++ []) s := .piece hb (.nil s)
    rw [List.append_nil] at htakes ⊢
    exact ⟨s, htakes, fun _ hc => hc, fun _ _ hc => hc⟩
  · exact ⟨.bytes e :: s, .enough hb he, fun _ hc => .bytes he hc, fun _ _ hc => .piece he hc⟩

/-- The first bytes can be taken from a stream, and it still brings the others. -/
theorem takes_of_brings {s : List Piece} {b c : Bytes} (h : Brings s (b ++ c)) :
    ∃ rest, Takes s b rest ∧ Brings rest c := by
  -- Nothing is taken by no read: an interruption at the front of the stream then stays where it is.
  by_cases hb : b = []
  · subst hb
    exact ⟨s, .nil s, h⟩
  generalize hd : b ++ c = d at h
  induction h generalizing b with
  | nil => exact absurd (List.append_eq_nil_iff.mp hd).1 hb
  | @bytes s a d ha later ih =>
    -- The piece goes on behind what is taken, or it is a part of it.
    rcases List.append_eq_append_iff.mp hd with ⟨e, rfl, rfl⟩ | ⟨e, rfl, rfl⟩
    · obtain ⟨mid, hfirst, hbrings, -⟩ := takes_cut hb e s
      exact ⟨mid, hfirst, hbrings d later⟩
    · by_cases he : e = []
      · subst he
        exact ⟨s, .piece ha (.nil s), later⟩
      · obtain ⟨rest, htakes, hrest⟩ := ih he rfl
        exact ⟨rest, .piece ha htakes, hrest⟩
  | retry hf later ih =>
    obtain ⟨rest, htakes, hrest⟩ := ih hb hd
    exact ⟨rest, .retry hf hb htakes, hrest⟩

theorem Takes.split {s rest : List Piece} {a b : Bytes} (h : Takes s (a ++ b) rest) :
    ∃ mid, Takes s a mid ∧ Takes mid b rest := by
  by_cases ha : a = []
  · subst ha
    exact ⟨s, .nil s, h⟩
  generalize hd : a ++ b = d at h
  induction h generalizing a with
  | nil s => exact absurd (List.append_eq_nil_iff.mp hd).1 ha
  | retry hf hne later ih =>
    obtain ⟨mid, hfirst, hsecond⟩ := ih ha hd
    exact ⟨mid, .retry hf ha hfirst, hsecond⟩
  | @piece s rest c d hc later ih =>
    rcases List.append_eq_append_iff.mp hd with ⟨e, rfl, rfl⟩ | ⟨e, rfl, rfl⟩
    · obtain ⟨mid, hfirst, -, htakes⟩ := takes_cut ha e s
      exact ⟨mid, hfirst, htakes d rest later⟩
    · by_cases he : e = []
      · subst he
        exact ⟨s, .piece hc (.nil s), later⟩
      · obtain ⟨mid, hfirst, hsecond⟩ := ih he rfl
        exact ⟨mid, .piece hc hfirst, hsecond⟩
  | @enough s d c hne hc =>
    subst hd
    by_cases hb : b = []
    · subst hb
      rw [List.append_nil]
      exact ⟨.bytes c :: s, .enough ha hc, .nil _⟩
    · refine ⟨.bytes (b ++ c) :: s, ?_, .enough hb hc⟩
      rw [List.append_assoc]
      exact .enough ha (by simp [hb])

/-! ### Reading one message -/

/-- A message is read by taking its bytes. What comes behind them, be it bytes, faults or ends of the stream, is left. -/
theorem readMessage_of_takes {s rest : List Piece} {m : Message} (h : Takes s m.encode rest) :
    readMessage s = (.ok m, rest) := by
  obtain ⟨k, p, hp⟩ := m
  have hsize : wordValue (UInt8.ofNat (p.length / 256)) (UInt8.ofNat p.length) = p.length :=
    wordValue_wordBytes (Nat.lt_succ_of_le hp)
  obtain ⟨mid, hheader, hbody⟩ :
      ∃ mid, Takes s [k, UInt8.ofNat (p.length / 256), UInt8.ofNat p.length] mid ∧ Takes mid p rest :=
    Takes.split h
  have hheader : fill headerLength s = _ := fill_of_takes hheader
  simp only [readMessage, hheader, hsize, fill_of_takes hbody, Nat.lt_irrefl, if_false, Message.make, dif_pos hp]

theorem readMessage_of_incomplete {s : List Piece} {b : Bytes} {e : CodecFault} (h : Brings s b)
    (he : Message.decode b = .error e) : (readMessage s).1 = .error e := by
  match b, h, he with
  | k :: hi :: lo :: rest, h, he =>
    have hbody : rest.length < wordValue hi lo ∧ e = .incompleteBody (wordValue hi lo) rest.length := by
      -- Only a body that is shorter than its header says stops decoding here.
      unfold Message.decode at he
      simp only at he
      split at he
      · cases he
      · next hne =>
        have hlt : rest.length < wordValue hi lo := Nat.lt_of_not_le fun hle => hne (List.length_take_of_le hle)
        rw [List.take_of_length_le (Nat.le_of_lt hlt)] at he
        exact ⟨hlt, (Except.error.inj he).symm⟩
    obtain ⟨hlt, rfl⟩ := hbody
    obtain ⟨mid, hheader, hmid⟩ : ∃ mid, Takes s [k, hi, lo] mid ∧ Brings mid rest := takes_of_brings h
    have hheader : fill headerLength s = _ := fill_of_takes hheader
    simp only [readMessage, hheader, fill_of_brings hmid hlt, if_pos hlt]
  | [], h, he | [_], h, he | [_, _], h, he =>
    cases he
    rw [readMessage, fill_of_brings h (by simp [headerLength])]

/-! ### Reading message after message -/

/-- What is left of a stream behind so many messages. -/
def behind (s : List Piece) (n : Nat) : List Piece := (readMessages n s).2

theorem readMessages_succ (n : Nat) (s : List Piece) : readMessages (n + 1) s =
    ((readMessage s).1 :: (readMessages n (readMessage s).2).1, (readMessages n (readMessage s).2).2) := rfl

theorem behind_succ (s : List Piece) (n : Nat) : behind s (n + 1) = behind (readMessage s).2 n := rfl

theorem readMessages_concat (n : Nat) (s : List Piece) :
    (readMessages (n + 1) s).1 = (readMessages n s).1 ++ [(readMessage (behind s n)).1] := by
  induction n generalizing s with
  | zero => rfl
  | succ n ih =>
    rw [readMessages_succ (n + 1), ih, readMessages_succ n, behind_succ]
    rfl

theorem readMessages_of_brings {s : List Piece} {ms : List Message} {left : Bytes}
    (h : Brings s (ms.flatMap Message.encode ++ left)) :
    (readMessages ms.length s).1 = ms.map .ok ∧ Brings (behind s ms.length) left ∧
      ∀ n m, ms[n]? = some m → Takes (behind s n) m.encode (behind s (n + 1)) := by
  induction ms generalizing s with
  | nil => exact ⟨rfl, h, nofun⟩
  | cons m ms ih =>
    rw [List.flatMap_cons, List.append_assoc] at h
    obtain ⟨rest, htakes, hrest⟩ := takes_of_brings h
    have hread := readMessage_of_takes htakes
    obtain ⟨hms, hleft, hall⟩ := ih hrest
    refine ⟨?_, ?_, ?_⟩
    · rw [List.length_cons, readMessages_succ, hread, hms]
      rfl
    · rw [List.length_cons, behind_succ, hread]
      exact hleft
    · intro n m' hn
      cases n with
      | zero =>
        cases hn
        rw [behind_succ, hread]
        exact htakes
      | succ n =>
        rw [behind_succ, behind_succ, hread]
        exact hall n m' hn

end Stream
end CallRelay
