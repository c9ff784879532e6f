/-! # Things that happen one after another

Lists of things with their instants, in the order of these instants. What has happened before an instant
is then a front part of the list. -/

namespace CallRelay

/-- From `now` on, and in order. -/
def Timely {α : Type} (now : Nat) (l : List (Nat × α)) : Prop :=
  (∀ a ∈ l, now ≤ a.1) ∧ l.Pairwise fun a b => a.1 ≤ b.1

namespace Timely
variable {α : Type} {now t : Nat} {l : List (Nat × α)}

theorem nil : Timely now ([] : List (Nat × α)) := ⟨nofun, .nil⟩

theorem cons {a : α} (h : now ≤ t) (hl : Timely t l) : Timely now ((t, a) :: l) := by
  refine ⟨List.forall_mem_cons.mpr ⟨h, fun b hb => Nat.le_trans h (hl.1 b hb)⟩, ?_⟩
  exact List.pairwise_cons.mpr ⟨hl.1, hl.2⟩

theorem mono (hl : Timely t l) (h : now ≤ t) : Timely now l := ⟨fun a ha => Nat.le_trans h (hl.1 a ha), hl.2⟩

theorem filter (hl : Timely now l) (P : Nat × α → Bool) : Timely now (l.filter P) :=
  ⟨fun a ha => hl.1 a (List.mem_filter.mp ha).1, hl.2.filter P⟩

theorem map {β : Type} (hl : Timely now l) (f : α → β) : Timely now (l.map fun a => (a.1, f a.2)) := by
  refine ⟨fun b hb => ?_, List.pairwise_map.mpr hl.2⟩
  obtain ⟨a, ha, rfl⟩ := List.mem_map.mp hb
  exact hl.1 a ha

theorem append {l' : List (Nat × α)} (hl : Timely now l) (hle : ∀ a ∈ l, a.1 ≤ t) (hnow : now ≤ t) (hl' : Timely t l') :
    Timely now (l ++ l') := by
  refine ⟨fun a ha => ?_, List.pairwise_append.mpr ⟨hl.2, hl'.2, fun a ha b hb => Nat.le_trans (hle a ha) (hl'.1 b hb)⟩⟩
  rcases List.mem_append.mp ha with ha | ha
  · exact hl.1 a ha
  · exact Nat.le_trans hnow (hl'.1 a ha)

/-- Nothing comes before the instants from which on things come. -/
theorem before_eq_nil {limit : Nat} (hl : Timely now l) (h : limit ≤ now) : l.filter (·.1 < limit) = [] :=
  List.filter_eq_nil_iff.mpr fun a ha => by
    have hnow := hl.1 a ha
    simp only [decide_eq_true_eq]
    omega

/-- What comes before an instant is a front part. -/
theorem before_front (hl : Timely now l) (limit : Nat) : l.filter (·.1 < limit) <+: l := by
  obtain ⟨-, hl⟩ := hl
  induction l with
  | nil => exact List.prefix_rfl
  | cons a l ih =>
    obtain ⟨ha, hl⟩ := List.pairwise_cons.mp hl
    by_cases hlt : a.1 < limit
    · rw [List.filter_cons_of_pos (by simpa using hlt)]
      exact (List.prefix_append_right_inj [a]).mpr (ih hl)
    · rw [List.filter_cons_of_neg (by simpa using hlt), before_eq_nil ⟨ha, hl⟩ (Nat.le_of_not_lt hlt)]
      exact List.nil_prefix

/-- What comes before an instant, and what comes from it on. -/
theorem split (hl : Timely now l) (t : Nat) :
    ∃ before after, l = before ++ after ∧ (∀ a ∈ before, a.1 < t) ∧ ∀ a ∈ after, t ≤ a.1 := by
  obtain ⟨-, hl⟩ := hl
  induction l with
  | nil => exact ⟨[], [], rfl, nofun, nofun⟩
  | cons a l ih =>
    obtain ⟨ha, hl⟩ := List.pairwise_cons.mp hl
    by_cases hlt : a.1 < t
    · obtain ⟨before, after, rfl, hbefore, hafter⟩ := ih hl
      exact ⟨a :: before, after, rfl, List.forall_mem_cons.mpr ⟨hlt, hbefore⟩, hafter⟩
    · have hle := Nat.le_of_not_lt hlt
      exact ⟨[], a :: l, rfl, nofun, List.forall_mem_cons.mpr ⟨hle, fun b hb => Nat.le_trans hle (ha b hb)⟩⟩

end Timely
end CallRelay
