import CallRelay.Uuid
import Mathlib.Data.List.Basic

/-! # Digits in their layouts

Bytes are read from the digits that they are written in, whatever the letter case of these. So are they from digits
in a layout: the text in lower case is the layout of the lowercase digits. -/

namespace CallRelay

namespace Hex
variable {c : Char} {n hi lo : Nat} {b : Bytes} {cs : List Char}

/-! ### Digits in either letter case -/

theorem toNat_toLower (c : Char) : c.toLower.toNat = if 65 ≤ c.toNat ∧ c.toNat ≤ 90 then c.toNat + 32 else c.toNat := by
  by_cases h : 65 ≤ c.toNat ∧ c.toNat ≤ 90
  · rw [if_pos h]
    have hlower : c.toLower.toNat = (c.val + 32).toNat := congrArg Char.toNat (dif_pos h)
    have hadd : (c.val + 32).toNat = (c.val.toNat + 32) % 4294967296 := UInt32.toNat_add _ _
    have hle : c.val.toNat ≤ 90 := h.2
    rw [hlower, hadd]
    exact Nat.mod_eq_of_lt (by omega)
  · rw [if_neg h]
    exact congrArg Char.toNat (dif_neg h)

theorem toList_toLower (s : String) : s.toLower.toList = s.toList.map Char.toLower := String.toList_map

theorem toLower_toLower (c : Char) : c.toLower.toLower = c.toLower := by
  rw [← Char.toNat_inj, toNat_toLower c.toLower, toNat_toLower c]
  grind

/-- Only letters have a case. -/
theorem toLower_eq_iff {x : Char} (h : ¬(65 ≤ x.toNat ∧ x.toNat ≤ 90) ∧ ¬(97 ≤ x.toNat ∧ x.toNat ≤ 122)) :
    c.toLower = x ↔ c = x := by
  rw [← Char.toNat_inj, ← Char.toNat_inj, toNat_toLower]
  grind

theorem digit_eq (h : n < 16) : digit n = Nat.digitChar n := by
  revert n
  decide

theorem toNat_digit (h : n < 16) : (digit n).toNat = if n < 10 then 48 + n else 87 + n := by
  revert n
  decide

theorem toLower_digit (h : n < 16) : (digit n).toLower = digit n := by
  rw [← Char.toNat_inj, toNat_toLower, toNat_digit h]
  grind

theorem value?_eq_some_iff : value? c = some n ↔ n < 16 ∧ c.toLower = digit n := by
  have hlt : value? c = some n → n < 16 := by
    unfold value?
    grind
  suffices hiff : n < 16 → (value? c = some n ↔ c.toLower = digit n) from
    ⟨fun h => ⟨hlt h, (hiff (hlt h)).mp h⟩, fun ⟨hn, h⟩ => (hiff hn).mpr h⟩
  intro hn
  rw [← Char.toNat_inj, toNat_toLower, toNat_digit hn]
  unfold value?
  grind

/-! ### Bytes in digits -/

theorem ofByte_ofNat (hhi : hi < 16) (hlo : lo < 16) : ofByte (UInt8.ofNat (hi * 16 + lo)) = [digit hi, digit lo] := by
  have hvalue : (UInt8.ofNat (hi * 16 + lo)).toNat = hi * 16 + lo := by
    rw [UInt8.toNat_ofNat']
    omega
  have hdiv : (hi * 16 + lo) / 16 = hi := by omega
  have hmod : (hi * 16 + lo) % 16 = lo := by omega
  rw [ofByte, hvalue, hdiv, hmod]

/-- Bytes are read from their digits alone, in whatever letter case these are. -/
theorem toBytes?_eq_some_iff : toBytes? cs = some b ↔ cs.map Char.toLower = ofBytes b := by
  fun_induction toBytes? cs generalizing b with
  | case1 => cases b <;> simp [ofBytes, ofByte]
  | case2 c => cases b <;> simp [ofBytes, ofByte]
  | case3 x y rest ih =>
    simp only [Option.bind_eq_bind, Option.bind_eq_some_iff, value?_eq_some_iff, ih, Option.some.injEq, List.map_cons]
    constructor
    · rintro ⟨hi, ⟨hhi, hx⟩, lo, ⟨hlo, hy⟩, tail, htail, rfl⟩
      rw [hx, hy, htail, ofBytes, ofBytes, List.flatMap_cons, ofByte_ofNat hhi hlo]
      rfl
    · intro h
      cases b with
      | nil => cases h
      | cons v tail =>
        obtain ⟨hx, h⟩ := List.cons.inj h
        obtain ⟨hy, htail⟩ := List.cons.inj h
        have hv := v.toNat_lt
        refine ⟨_, ⟨by omega, hx⟩, _, ⟨Nat.mod_lt _ (by decide), hy⟩, tail, htail, ?_⟩
        rw [Nat.div_add_mod', UInt8.ofNat_toNat]

theorem length_ofBytes (b : Bytes) : (ofBytes b).length = 2 * b.length := by
  induction b with
  | nil => rfl
  | cons v b ih =>
    rw [ofBytes, List.flatMap_cons, List.length_append, List.length_cons]
    change 2 + (ofBytes b).length = _
    omega

theorem mem_ofBytes (h : c ∈ ofBytes b) : ∃ n < 16, c = digit n := by
  obtain ⟨v, -, hc⟩ := List.mem_flatMap.mp h
  have hv := v.toNat_lt
  simp only [ofByte, List.mem_cons, List.not_mem_nil, or_false] at hc
  rcases hc with rfl | rfl
  · exact ⟨_, by omega, rfl⟩
  · exact ⟨_, Nat.mod_lt _ (by decide), rfl⟩

theorem map_toLower_ofBytes (b : Bytes) : (ofBytes b).map Char.toLower = ofBytes b := by
  refine (List.map_congr_left fun c hc => ?_).trans (List.map_id _)
  obtain ⟨n, hn, rfl⟩ := mem_ofBytes hc
  exact toLower_digit hn

end Hex

namespace Uuid
variable {cs ds : List Char} {b : Bytes} {s : String}

/-! ### The hyphenated layout -/

/-- The five groups of a text in the written layout. -/
theorem hyphenate_append {a b c d : List Char} (ha : a.length = 8) (hb : b.length = 4) (hc : c.length = 4)
    (hd : d.length = 4) (e : List Char) :
    hyphenate (a ++ (b ++ (c ++ (d ++ e)))) = a ++ '-' :: (b ++ '-' :: (c ++ '-' :: (d ++ '-' :: e))) := by
  simp (disch := omega) only [hyphenate, List.take_append, List.drop_append, List.take_of_length_le,
    List.drop_eq_nil_of_le, ha, hb, hc, hd, Nat.sub_self, List.take_zero, List.drop_zero, List.append_nil, List.nil_append,
    Nat.reduceSub]

theorem take_drop_append_drop {α : Type} (l : List α) (i n : Nat) : (l.drop i).take n ++ l.drop (i + n) = l.drop i := by
  rw [← List.drop_drop, List.take_append_drop]

theorem drop_group {α : Type} {l : List α} {i n : Nat} {x : α} (h : l[i + n]? = some x) :
    l.drop i = (l.drop i).take n ++ x :: l.drop (i + n + 1) := by
  obtain ⟨hi, rfl⟩ := List.getElem?_eq_some_iff.mp h
  rw [← List.drop_eq_getElem_cons hi, take_drop_append_drop]

theorem exists_groups (h : ds.length = 32) :
    ∃ a b c d e : List Char, ds = a ++ (b ++ (c ++ (d ++ e))) ∧ a.length = 8 ∧ b.length = 4 ∧ c.length = 4 ∧
      d.length = 4 ∧ e.length = 12 := by
  refine ⟨ds.take 8, (ds.drop 8).take 4, (ds.drop 12).take 4, (ds.drop 16).take 4, ds.drop 20, ?_, by simp [h]⟩
  rw [take_drop_append_drop ds 16 4, take_drop_append_drop ds 12 4, take_drop_append_drop ds 8 4, List.take_append_drop]

theorem length_hyphenate (h : ds.length = 32) : (hyphenate ds).length = 36 := by
  obtain ⟨a, b, c, d, e, rfl, ha, hb, hc, hd, he⟩ := exists_groups h
  rw [hyphenate_append ha hb hc hd]
  simp [ha, hb, hc, hd, he]

/-- The digits stand in groups of 8, 4, 4, 4 and 12 with hyphens between them. -/
def Hyphenated (cs ds : List Char) : Prop :=
  ∃ groups : List (List Char), groups.map List.length = [8, 4, 4, 4, 12] ∧ groups.flatten = ds ∧
    cs = ['-'].intercalate groups

theorem hyphenate_hyphenated (h : ds.length = 32) : Hyphenated (hyphenate ds) ds := by
  obtain ⟨a, b, c, d, e, rfl, ha, hb, hc, hd, he⟩ := exists_groups h
  refine ⟨[a, b, c, d, e], by simp [ha, hb, hc, hd, he], by simp, ?_⟩
  rw [hyphenate_append ha hb hc hd]
  simp [List.intercalate]

theorem filter_hyphenate (h : ds.length = 32) (hds : '-' ∉ ds) : (hyphenate ds).filter (· ≠ '-') = ds := by
  obtain ⟨a, b, c, d, e, rfl, ha, hb, hc, hd, he⟩ := exists_groups h
  have hself : ∀ l : List Char, '-' ∉ l → l.filter (· ≠ '-') = l := fun l hl =>
    List.filter_eq_self.mpr fun c hc => decide_eq_true fun heq => hl (heq ▸ hc)
  have hhyphen : ∀ l : List Char, ('-' :: l).filter (· ≠ '-') = l.filter (· ≠ '-') :=
    fun l => List.filter_cons_of_neg (by decide)
  simp only [List.mem_append, not_or] at hds
  obtain ⟨hda, hdb, hdc, hdd, hde⟩ := hds
  rw [hyphenate_append ha hb hc hd]
  simp only [List.filter_append, hhyphen, hself _ hda, hself _ hdb, hself _ hdc, hself _ hdd, hself _ hde]

theorem map_hyphenate (ds : List Char) : (hyphenate ds).map Char.toLower = hyphenate (ds.map Char.toLower) := by
  have hhyphen : '-'.toLower = '-' := rfl
  simp only [hyphenate, List.map_append, List.map_cons, List.map_take, List.map_drop, hhyphen]

theorem mem_hyphenate {c : Char} (h : c ∈ hyphenate ds) : c = '-' ∨ c ∈ ds := by
  simp only [hyphenate, List.mem_append, List.mem_cons] at h
  grind [List.mem_of_mem_take, List.mem_of_mem_drop]

/-- A text whose lowercase form is hyphenated is so itself. -/
theorem exists_hyphenate (hlength : ds.length = 32) (h : cs.map Char.toLower = hyphenate ds) :
    ∃ ds', cs = hyphenate ds' ∧ ds'.map Char.toLower = ds := by
  obtain ⟨a, b, c, d, e, rfl, ha, hb, hc, hd, -⟩ := exists_groups hlength
  have hhyphen : ∀ x : Char, x.toLower = '-' → x = '-' := fun x => (Hex.toLower_eq_iff (by decide)).mp
  rw [hyphenate_append ha hb hc hd] at h
  -- Group after group is split off, with the hyphen behind it.
  obtain ⟨a', r₁, rfl, rfl, h₁⟩ := List.map_eq_append_iff.mp h
  obtain ⟨x, r₂, rfl, hx, h₂⟩ := List.map_eq_cons_iff.mp h₁
  obtain ⟨b', r₃, rfl, rfl, h₃⟩ := List.map_eq_append_iff.mp h₂
  obtain ⟨y, r₄, rfl, hy, h₄⟩ := List.map_eq_cons_iff.mp h₃
  obtain ⟨c', r₅, rfl, rfl, h₅⟩ := List.map_eq_append_iff.mp h₄
  obtain ⟨z, r₆, rfl, hz, h₆⟩ := List.map_eq_cons_iff.mp h₅
  obtain ⟨d', r₇, rfl, rfl, h₇⟩ := List.map_eq_append_iff.mp h₆
  obtain ⟨w, e', rfl, hw, rfl⟩ := List.map_eq_cons_iff.mp h₇
  simp only [List.length_map] at ha hb hc hd
  refine ⟨a' ++ (b' ++ (c' ++ (d' ++ e'))), ?_, by simp only [List.map_append]⟩
  rw [hyphenate_append ha hb hc hd, hhyphen x hx, hhyphen y hy, hhyphen z hz, hhyphen w hw]

/-! ### Layouts in either letter case -/

theorem map_toLower_idem (cs : List Char) : (cs.map Char.toLower).map Char.toLower = cs.map Char.toLower := by
  rw [List.map_map]
  exact List.map_congr_left fun c _ => Hex.toLower_toLower c

theorem Layout.map_toLower (h : Layout ds cs) : Layout (ds.map Char.toLower) (cs.map Char.toLower) := by
  cases h with
  | bare => exact .bare
  | hyphenated =>
    rw [map_hyphenate]
    exact .hyphenated
  | braced =>
    rw [List.map_cons, List.map_append, map_hyphenate]
    exact .braced
  | urn hscheme =>
    rw [List.map_append, map_hyphenate]
    exact .urn ((map_toLower_idem _).trans hscheme)

/-- A text whose lowercase form is a layout of digits is a layout itself. -/
theorem Layout.of_map_toLower (hlength : ds.length = 32) (h : Layout ds (cs.map Char.toLower)) :
    ∃ ds', Layout ds' cs ∧ ds'.map Char.toLower = ds := by
  generalize hlower : cs.map Char.toLower = lower at h
  cases h with
  | bare => exact ⟨cs, .bare, hlower⟩
  | hyphenated =>
    obtain ⟨ds', rfl, hds⟩ := exists_hyphenate hlength hlower
    exact ⟨ds', .hyphenated, hds⟩
  | braced =>
    obtain ⟨x, r, rfl, hx, hrest⟩ := List.map_eq_cons_iff.mp hlower
    obtain ⟨inner, last, rfl, hinner, hlast⟩ := List.map_eq_append_iff.mp hrest
    obtain ⟨y, r, rfl, hy, hnil⟩ := List.map_eq_cons_iff.mp hlast
    obtain rfl := List.map_eq_nil_iff.mp hnil
    obtain ⟨ds', rfl, hds⟩ := exists_hyphenate hlength hinner
    rw [Hex.toLower_eq_iff (by decide)] at hx hy
    subst hx hy
    exact ⟨ds', .braced, hds⟩
  | urn hscheme =>
    obtain ⟨scheme', inner, rfl, rfl, hinner⟩ := List.map_eq_append_iff.mp hlower
    obtain ⟨ds', rfl, hds⟩ := exists_hyphenate hlength hinner
    exact ⟨ds', .urn ((map_toLower_idem scheme').symm.trans hscheme), hds⟩

theorem length_ofBytes (h : b.length = 16) : (Hex.ofBytes b).length = 32 := by
  rw [Hex.length_ofBytes, h]

/-- Bytes are written by the layouts of their lowercase digits, in whatever letter case. -/
theorem writes_iff : Writes s b ↔ b.length = 16 ∧ Layout (Hex.ofBytes b) (s.toList.map Char.toLower) := by
  refine and_congr_right fun hlength => ⟨?_, fun h => ?_⟩
  · rintro ⟨ds, hlayout, hds⟩
    rw [← Hex.toBytes?_eq_some_iff.mp hds]
    exact hlayout.map_toLower
  · obtain ⟨ds, hlayout, hds⟩ := Layout.of_map_toLower (length_ofBytes hlength) h
    exact ⟨ds, hlayout, Hex.toBytes?_eq_some_iff.mpr hds⟩

/-! ### Documented libraries -/

section Documented
variable {υ : Type} {lib : Library υ}

/-- A documented library reads what writes bytes, as these bytes, and nothing else. -/
theorem Library.Documented.parse?_iff (hlib : lib.Documented) :
    (∃ u, lib.parse? s = some u ∧ lib.bytes u = b) ↔ Writes s b := by
  refine ⟨?_, hlib.reads s b⟩
  rintro ⟨u, hu, rfl⟩
  by_cases hwrites : ∃ b, Writes s b
  · obtain ⟨b, hb⟩ := hwrites
    obtain ⟨u', hu', rfl⟩ := hlib.reads s b hb
    cases hu.symm.trans hu'
    exact hb
  · have hnone := hlib.refuses s fun b hb => hwrites ⟨b, hb⟩
    cases hu.symm.trans hnone

end Documented
end Uuid
end CallRelay
