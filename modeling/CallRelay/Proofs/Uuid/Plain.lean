import CallRelay.Proofs.Uuid
import CallRelay.Uuid.Plain

/-! # The plain library at work

The plain library reads digits in every documented layout and refuses everything else: the length of a text tells which
layout it has to be in, and then its hyphens have to be in their places and 32 digits have to be left. -/

namespace CallRelay.Uuid
variable {cs ds : List Char} {b : Bytes} {s : String}

/-- The digits are what the hyphenated layout holds besides its hyphens. -/
theorem unhyphenate?_hyphenate (h : ds.length = 32) : unhyphenate? (hyphenate ds) = some ds := by
  obtain ⟨a, b, c, d, e, rfl, ha, hb, hc, hd, he⟩ := exists_groups h
  rw [hyphenate_append ha hb hc hd]
  simp (disch := omega) [unhyphenate?, List.getElem?_append, List.drop_append, List.drop_eq_nil_of_le, ha, hb, hc, hd]
  exact ⟨rfl, rfl, rfl, rfl⟩

theorem unhyphenate?_eq_some_iff (h : cs.length = 36) : unhyphenate? cs = some ds ↔ ds.length = 32 ∧ cs = hyphenate ds := by
  constructor
  · intro hds
    unfold unhyphenate? at hds
    split at hds
    · next hhyphens =>
      obtain ⟨h8, h13, h18, h23⟩ := hhyphens
      cases hds
      refine ⟨by simp [h], ?_⟩
      have hfirst : cs = cs.take 8 ++ '-' :: cs.drop 9 := drop_group (i := 0) (n := 8) h8
      have hsecond : cs.drop 9 = (cs.drop 9).take 4 ++ '-' :: cs.drop 14 := drop_group (i := 9) (n := 4) h13
      have hthird : cs.drop 14 = (cs.drop 14).take 4 ++ '-' :: cs.drop 19 := drop_group (i := 14) (n := 4) h18
      have hfourth : cs.drop 19 = (cs.drop 19).take 4 ++ '-' :: cs.drop 24 := drop_group (i := 19) (n := 4) h23
      simp only [List.append_assoc]
      rw [hyphenate_append (by simp [h]) (by simp [h]) (by simp [h]) (by simp [h]), ← hfourth, ← hthird, ← hsecond,
        ← hfirst]
    · cases hds
  · rintro ⟨hlen, rfl⟩
    exact unhyphenate?_hyphenate hlen

theorem betweenBraces?_eq_some_iff (h : 2 ≤ cs.length) : betweenBraces? cs = some ds ↔ cs = '\x7b' :: (ds ++ ['\x7d']) := by
  obtain ⟨first, cs, rfl⟩ := List.exists_cons_of_length_pos (Nat.lt_of_lt_of_le Nat.zero_lt_two h)
  rcases List.eq_nil_or_concat' cs with rfl | ⟨inner, last, rfl⟩
  · exact absurd h (by simp)
  · have hlast : (first :: (inner ++ [last])).getLast? = some last := List.getLast?_concat (l := first :: inner)
    rw [betweenBraces?, List.head?_cons, hlast, List.tail_cons, List.dropLast_concat, List.cons.injEq]
    simp only [Option.some.injEq, Option.ite_none_right_eq_some]
    constructor
    · rintro ⟨⟨rfl, rfl⟩, rfl⟩
      exact ⟨rfl, rfl⟩
    · rintro ⟨rfl, happend⟩
      obtain ⟨rfl, hlast⟩ := List.append_inj' happend rfl
      exact ⟨⟨rfl, List.singleton_injective hlast⟩, rfl⟩

theorem length_scheme {scheme : List Char} (h : scheme.map Char.toLower = "urn:uuid:".toList) : scheme.length = 9 := by
  rw [← List.length_map Char.toLower, h]
  rfl

theorem afterUrn?_eq_some_iff : afterUrn? cs = some ds ↔
    ∃ scheme, scheme.map Char.toLower = "urn:uuid:".toList ∧ cs = scheme ++ ds := by
  unfold afterUrn?
  constructor
  · intro h
    split at h
    · next hscheme =>
      cases h
      exact ⟨_, hscheme, (List.take_append_drop 9 cs).symm⟩
    · cases h
  · rintro ⟨scheme, hscheme, rfl⟩
    rw [← length_scheme hscheme, List.take_left, List.drop_left, if_pos hscheme]

theorem digitsOf?_eq_some_iff : digitsOf? cs = some ds ↔ ds.length = 32 ∧ Layout ds cs := by
  constructor
  · intro h
    unfold digitsOf? at h
    split at h
    · next hlength =>
      cases h
      exact ⟨hlength, .bare⟩
    split at h
    · next hlength =>
      obtain ⟨hds, rfl⟩ := (unhyphenate?_eq_some_iff hlength).mp h
      exact ⟨hds, .hyphenated⟩
    split at h
    · next hlength =>
      obtain ⟨inner, hinner, hread⟩ := Option.bind_eq_some_iff.mp h
      rw [betweenBraces?_eq_some_iff (by omega)] at hinner
      subst hinner
      obtain ⟨hds, rfl⟩ := (unhyphenate?_eq_some_iff (by simpa using hlength)).mp hread
      exact ⟨hds, .braced⟩
    split at h
    · next hlength =>
      obtain ⟨inner, hinner, hread⟩ := Option.bind_eq_some_iff.mp h
      obtain ⟨scheme, hscheme, rfl⟩ := afterUrn?_eq_some_iff.mp hinner
      rw [List.length_append, length_scheme hscheme] at hlength
      obtain ⟨hds, rfl⟩ := (unhyphenate?_eq_some_iff (by omega)).mp hread
      exact ⟨hds, .urn hscheme⟩
    · cases h
  · rintro ⟨hds, hlayout⟩
    have hread := unhyphenate?_hyphenate hds
    have hlength := length_hyphenate hds
    unfold digitsOf?
    cases hlayout with
    | bare => rw [if_pos hds]
    | hyphenated => rw [if_neg (by omega), if_pos hlength, hread]
    | braced =>
      have hbraced : ('\x7b' :: (hyphenate ds ++ ['\x7d'])).length = 38 := by simp [hlength]
      rw [if_neg (by omega), if_neg (by omega), if_pos hbraced, (betweenBraces?_eq_some_iff (by omega)).mpr rfl]
      exact hread
    | @urn scheme hscheme =>
      have hurn : (scheme ++ hyphenate ds).length = 45 := by rw [List.length_append, length_scheme hscheme, hlength]
      rw [if_neg (by omega), if_neg (by omega), if_neg (by omega), if_pos hurn,
        afterUrn?_eq_some_iff.mpr ⟨scheme, hscheme, rfl⟩]
      exact hread

theorem parse?_plain_iff {u : Block} :
    plain.parse? s = some u ↔ ∃ ds, digitsOf? s.toList = some ds ∧ Hex.toBytes? ds = some u.1 := by
  have hblock : ∀ b, Block.ofBytes? b = some u ↔ b = u.1 := by
    intro b
    unfold Block.ofBytes?
    split
    · next h =>
      rw [Option.some.injEq]
      exact Subtype.ext_iff
    · next h => exact iff_of_false nofun fun heq => h (heq ▸ u.2)
  unfold plain
  simp only [Option.bind_eq_some_iff, hblock, exists_eq_right]

theorem writes_iff_digitsOf? :
    Writes s b ↔ b.length = 16 ∧ ∃ ds, digitsOf? s.toList = some ds ∧ Hex.toBytes? ds = some b := by
  refine and_congr_right fun hlength => exists_congr fun ds => and_congr_left fun hds => ?_
  have hdigits : ds.length = 32 := by
    rw [← List.length_map Char.toLower, Hex.toBytes?_eq_some_iff.mp hds, length_ofBytes hlength]
  rw [digitsOf?_eq_some_iff, and_iff_right hdigits]

theorem plain_documented : plain.Documented where
  bytes_ofBytes _ _ := rfl
  displays _ := String.toList_ofList
  reads s b h := by
    obtain ⟨hlength, hread⟩ := writes_iff_digitsOf?.mp h
    exact ⟨⟨b, hlength⟩, parse?_plain_iff.mpr hread, rfl⟩
  refuses s h := by
    refine Option.eq_none_iff_forall_ne_some.mpr fun u hu => ?_
    exact h u.1 (writes_iff_digitsOf?.mpr ⟨u.2, parse?_plain_iff.mp hu⟩)

end CallRelay.Uuid
