import CallRelay.Proofs.Sources

/-! # Playing a clip

Whatever a clip is asked for, its chunks make up a front part of its whole samples, and its offset never passes their end.
It has nothing to hand out exactly when no byte is asked for or none is left. A request that reaches past the largest word
is not answered at all, which never happens to a clip in memory that is asked for no more than half of the words. -/

namespace CallRelay.Clip
variable {c c' : Clip} {room : Nat} {n : UInt64} {ns : List UInt64} {data : Bytes} {x : Option Bytes}
  {answers : List (UInt64 × Option Bytes)}

/-! ### One request -/

/-- Everything that a request for `room` bytes can come to. -/
inductive Takes (c : Clip) (room : Nat) : Option (Option Bytes × Clip) → Prop
  | chunk (hfits : c.Reaches room) (hpos : 0 < min c.remaining room) :
      Takes c room (some (some ((c.data.drop c.offset).take (min c.remaining room)),
        { c with offset := c.offset + min c.remaining room }))
  | nothing (hfits : c.Reaches room) (h : room = 0 ∨ c.remaining = 0) : Takes c room (some (none, c))
  | panics (h : UInt64.size ≤ c.offset + room) : Takes c room none

theorem take?_takes (hin : c.offset ≤ c.playable) (room : Nat) : c.Takes room (c.take? room) := by
  unfold take?
  split
  · next hfits =>
    have hlast : c.requestEnd room = c.offset + min c.remaining room := by
      unfold requestEnd remaining
      omega
    unfold take
    simp only [hlast, Nat.add_sub_cancel_left]
    split
    · exact .chunk hfits (by omega)
    · exact .nothing hfits (by omega)
  · next hover => exact .panics (Nat.le_of_not_lt hover)

theorem next_of_take? (h : c.take? room = some (x, c')) (now : Nat) :
    source.next c room now = some { delay := 0, supply := x.elim .done .chunk, source := c' } := by
  unfold source
  simp only [h]
  cases x <;> rfl

/-! ### One request after another -/

/-- The answers to requests of these sizes, one after another and each beside its size, and the clip behind them; there are
    none if a request panics. -/
def asked? (c : Clip) : List UInt64 → Option (List (UInt64 × Option Bytes) × Clip)
  | [] => some ([], c)
  | n :: ns =>
    match c.take? n.toNat with
    | none => none
    | some (x, c') => (c'.asked? ns).map fun later => ((n, x) :: later.1, later.2)

/-- The chunks among some answers, joined. -/
def handed (answers : List (UInt64 × Option Bytes)) : Bytes := (answers.filterMap Prod.snd).flatten

theorem handed_cons (n : UInt64) (x : Option Bytes) (answers : List (UInt64 × Option Bytes)) :
    handed ((n, x) :: answers) = x.getD [] ++ handed answers := by
  cases x <;> rfl

/-- The clip holds `data`, and its offset is a word inside. -/
structure Inside (data : Bytes) (c : Clip) : Prop where
  same : c.data = data
  le : c.offset ≤ c.playable
  word : c.offset < UInt64.size

theorem Inside.take? (h : Inside data c) (htake : c.take? n.toNat = some (x, c')) :
    Inside data c' ∧ data.take c.offset ++ x.getD [] = data.take c'.offset ∧ ∀ b, x = some b → b.length ≤ n.toNat := by
  have htakes := take?_takes h.le n.toNat
  rw [htake] at htakes
  cases htakes with
  | chunk hfits hpos =>
    refine ⟨⟨h.same, ?_, ?_⟩, ?_, ?_⟩
    · have hle := h.le
      have hsame : ({ c with offset := c.offset + min c.remaining n.toNat } : Clip).playable = c.playable := rfl
      rw [hsame]
      unfold remaining
      simp only
      omega
    · exact Nat.lt_of_le_of_lt (Nat.add_le_add_left (Nat.min_le_right _ _) _) hfits
    · simp only [Option.getD_some, h.same]
      exact List.take_add.symm
    · rintro b ⟨⟩
      exact Nat.le_trans (List.length_take_le _ _) (Nat.min_le_right _ _)
  | nothing => exact ⟨h, List.append_nil _, nofun⟩

theorem Inside.asked? (h : Inside data c) (hasked : c.asked? ns = some (answers, c')) :
    answers.map Prod.fst = ns ∧ Inside data c' ∧ data.take c.offset ++ handed answers = data.take c'.offset ∧
      ∀ n b, (n, some b) ∈ answers → b.length ≤ n.toNat := by
  induction ns generalizing c answers with
  | nil =>
    cases hasked
    exact ⟨rfl, h, List.append_nil _, nofun⟩
  | cons n ns ih =>
    rw [Clip.asked?] at hasked
    split at hasked
    · cases hasked
    · next x c₁ htake =>
      obtain ⟨⟨later, last⟩, hlater, heq⟩ := Option.map_eq_some_iff.mp hasked
      cases heq
      obtain ⟨hin, hfront, hsize⟩ := h.take? htake
      obtain ⟨hnames, hin', hfront', hsizes⟩ := ih hin hlater
      refine ⟨by rw [List.map_cons, hnames], hin', ?_, ?_⟩
      · rw [handed_cons, ← List.append_assoc, hfront]
        exact hfront'
      · intro m b hmem
        rcases List.mem_cons.mp hmem with heq | hmem
        · injection heq with hm hb
          exact hm ▸ hsize b hb.symm
        · exact hsizes m b hmem

/-- Requests panic exactly if one of them does, behind others that are answered. -/
theorem asked?_eq_none_iff : c.asked? ns = none ↔ ∃ front n answers c', front ++ [n] <+: ns ∧
    c.asked? front = some (answers, c') ∧ c'.take? n.toNat = none := by
  induction ns generalizing c with
  | nil =>
    refine iff_of_false nofun ?_
    rintro ⟨front, n, answers, c', hfront, -⟩
    exact absurd (List.prefix_nil.mp hfront) (List.append_ne_nil_of_right_ne_nil _ (List.cons_ne_nil _ _))
  | cons m ns ih =>
    cases htake : c.take? m.toNat with
    | none =>
      refine iff_of_true (by rw [asked?, htake]) ⟨[], m, [], c, ?_, rfl, htake⟩
      exact List.prefix_append [m] ns
    | some taken =>
      obtain ⟨x, c₁⟩ := taken
      rw [asked?, htake]
      simp only [Option.map_eq_none_iff]
      rw [ih]
      constructor
      · rintro ⟨front, n, answers, c', hfront, hasked, hnone⟩
        refine ⟨m :: front, n, (m, x) :: answers, c', ?_, ?_, hnone⟩
        · exact (List.prefix_cons_inj m).mpr hfront
        · rw [asked?, htake]
          simp only [hasked, Option.map_some]
      · rintro ⟨front, n, answers, c', hfront, hasked, hnone⟩
        cases front with
        | nil =>
          -- The first request is answered, so that another one panics.
          cases hasked
          obtain ⟨rfl, -⟩ := List.cons_prefix_cons.mp hfront
          cases htake.symm.trans hnone
        | cons k front =>
          obtain ⟨rfl, hbehind⟩ := List.cons_prefix_cons.mp hfront
          rw [asked?, htake] at hasked
          obtain ⟨⟨later, last⟩, hlater, heq⟩ := Option.map_eq_some_iff.mp hasked
          cases heq
          exact ⟨front, n, later, last, hbehind, hlater, hnone⟩

/-- The clip `c` behind these answers to requests that were made of the whole of `data`. -/
structure Played (data : Bytes) (answers : List (UInt64 × Option Bytes)) (c : Clip) : Prop where
  same : c.data = data
  /-- What is left is the difference of the two, and they make no negative one. -/
  inside : c.offset ≤ c.playable
  front : handed answers = data.take (c.playable - c.remaining)
  sizes : ∀ n b, (n, some b) ∈ answers → b.length ≤ n.toNat
  /-- A further request panics exactly if its end is past the largest word. -/
  panics_iff : ∀ n : UInt64, c.take? n.toNat = none ↔ UInt64.size ≤ c.offset + n.toNat
  /-- Any other one is answered at once. -/
  answered : ∀ (n : UInt64) x c', c.take? n.toNat = some (x, c') → ∀ now,
    source.next c n.toNat now = some { delay := 0, supply := x.elim .done .chunk, source := c' }
  /-- Its chunk is read from inside the clip. -/
  chunk : ∀ (n : UInt64) b c', c.take? n.toNat = some (some b, c') →
    b = (data.drop c.offset).take (min c.remaining n.toNat) ∧ c.offset + min c.remaining n.toNat ≤ data.length
  ends_iff : ∀ n : UInt64, (∃ c', c.take? n.toNat = some (none, c')) ↔
    c.offset + n.toNat < UInt64.size ∧ (n = 0 ∨ c.remaining = 0)
  /-- Nothing is lost where there is no chunk. -/
  stays : ∀ (n : UInt64) c', c.take? n.toNat = some (none, c') → c' = c

theorem Inside.played (h : Inside data c) (hfront : handed answers = data.take c.offset)
    (hsizes : ∀ n b, (n, some b) ∈ answers → b.length ≤ n.toNat) : Played data answers c := by
  have htakes := fun n : UInt64 => take?_takes h.le n.toNat
  refine ⟨h.same, h.le, ?_, hsizes, fun n => ?_, fun n x c' hn => next_of_take? hn, fun n b c' hn => ?_, fun n => ?_,
    fun n c' hn => ?_⟩
  · have hoffset : c.playable - c.remaining = c.offset := Nat.sub_sub_self h.le
    rw [hoffset, hfront]
  · have hn := htakes n
    generalize c.take? n.toNat = taken at hn
    cases hn with
    | chunk hfits | nothing hfits => exact iff_of_false nofun (Nat.not_le_of_lt hfits)
    | panics hover => exact iff_of_true rfl hover
  · have htake := htakes n
    rw [hn] at htake
    cases htake with
    | chunk hfits hpos =>
      have hle := Nat.le_trans (Nat.le_of_eq (Nat.add_sub_cancel' h.le)) c.playable_le
      rw [h.same] at hle ⊢
      unfold remaining
      exact ⟨rfl, by omega⟩
  · have hzero : n = 0 ↔ n.toNat = 0 := UInt64.toNat_inj.symm
    have hn := htakes n
    generalize c.take? n.toNat = taken at hn
    rw [hzero]
    cases hn with
    | chunk hfits hpos => exact iff_of_false nofun (by omega)
    | nothing hfits hnone => exact iff_of_true ⟨c, rfl⟩ ⟨hfits, hnone⟩
    | panics hover => exact iff_of_false nofun fun hends => Nat.not_le_of_lt hends.1 hover
  · have htake := htakes n
    rw [hn] at htake
    cases htake with
    | nothing => rfl

/-- A clip is played exactly, whatever it is asked for, up to a request whose end is past the largest word. There is no
    such request if the clip fits into memory and no more than half of the words is asked for at once. -/
theorem clip_played (data : Bytes) (ns : List UInt64) :
    (∀ answers c, asked? ⟨data, 0⟩ ns = some (answers, c) → answers.map Prod.fst = ns ∧ Played data answers c) ∧
    (asked? ⟨data, 0⟩ ns = none ↔ ∃ front n answers c, front ++ [n] <+: ns ∧
      asked? ⟨data, 0⟩ front = some (answers, c) ∧ UInt64.size ≤ c.offset + n.toNat) ∧
    (data.length < UInt64.size / 2 → (∀ n ∈ ns, n.toNat ≤ UInt64.size / 2) → asked? ⟨data, 0⟩ ns ≠ none) := by
  have hstart : Inside data ⟨data, 0⟩ := ⟨rfl, Nat.zero_le _, Nat.two_pow_pos 64⟩
  have hplayed : ∀ {ns answers c}, asked? ⟨data, 0⟩ ns = some (answers, c) →
      answers.map Prod.fst = ns ∧ Played data answers c := by
    intro ns answers c hasked
    obtain ⟨hnames, hin, hfront, hsizes⟩ := hstart.asked? hasked
    exact ⟨hnames, hin.played hfront hsizes⟩
  have hpanics : asked? ⟨data, 0⟩ ns = none ↔ ∃ front n answers c, front ++ [n] <+: ns ∧
      asked? ⟨data, 0⟩ front = some (answers, c) ∧ UInt64.size ≤ c.offset + n.toNat := by
    rw [asked?_eq_none_iff]
    refine exists_congr fun front => exists_congr fun n => exists_congr fun answers => exists_congr fun c => ?_
    exact and_congr_right fun _ => and_congr_right fun hasked => (hplayed hasked).2.panics_iff n
  refine ⟨fun answers c => hplayed, hpanics, fun hmemory hsizes hnone => ?_⟩
  obtain ⟨front, n, answers, c, hfront, hasked, hover⟩ := hpanics.mp hnone
  obtain ⟨-, hc⟩ := hplayed hasked
  have hn := hsizes n (hfront.subset (List.mem_append_right _ List.mem_cons_self))
  have hle := Nat.le_trans hc.inside c.playable_le
  rw [hc.same] at hle
  unfold UInt64.size at hmemory hn hover
  omega

/-- Two samples and an odd byte: one sample, nothing, and the other one for a request that ends at the largest word. -/
theorem two_samples_played :
    asked? ⟨[1, 2, 3, 4, 5], 0⟩ [2, 0, 18446744073709551613] =
      some ([(2, some [1, 2]), (0, none), (18446744073709551613, some [3, 4])], ⟨[1, 2, 3, 4, 5], 4⟩) ∧
    Played [1, 2, 3, 4, 5] [(2, some [1, 2]), (0, none), (18446744073709551613, some [3, 4])] ⟨[1, 2, 3, 4, 5], 4⟩ := by
  have hasked : asked? ⟨[1, 2, 3, 4, 5], 0⟩ [2, 0, 18446744073709551613] =
      some ([(2, some [1, 2]), (0, none), (18446744073709551613, some [3, 4])], ⟨[1, 2, 3, 4, 5], 4⟩) := by decide
  exact ⟨hasked, ((clip_played [1, 2, 3, 4, 5] [2, 0, 18446744073709551613]).1 _ _ hasked).2⟩

/-- A request for the largest word panics although half of the clip is left. -/
theorem largest_word_panics : asked? ⟨[1, 2, 3, 4], 0⟩ [2] = some ([(2, some [1, 2])], ⟨[1, 2, 3, 4], 2⟩) ∧
    (⟨[1, 2, 3, 4], 2⟩ : Clip).remaining = 2 ∧ asked? ⟨[1, 2, 3, 4], 0⟩ [2, 18446744073709551615] = none := by
  decide

end CallRelay.Clip
