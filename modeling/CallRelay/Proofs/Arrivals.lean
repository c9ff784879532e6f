import CallRelay.Inflow

/-! # What reads take from the arrivals

A read passes over arrivals without bytes and takes the first other one: the end of the stream, which
stays where it is, a fault, or the bytes of an arrival as far as there is room. However the bytes in
front of the end of the stream are cut into arrivals and reads, they are the same string. -/

namespace CallRelay
namespace Inflow

/-- Arrivals without bytes. -/
def Blank (i : Inflow) : Prop := ∀ a ∈ i, a.what = .bytes []

/-- What a read finds at the arrival `a`, which is not blank, with `rest` behind it. -/
inductive Takes (now : Nat) : Arrival → Inflow → Found → Prop
  | eof (t : Nat) (rest : Inflow) : Takes now ⟨t, .eof⟩ rest ⟨max now t, .eof, ⟨t, .eof⟩ :: rest⟩
  | fault (t : Nat) (g : Fault) (rest : Inflow) : Takes now ⟨t, .fault g⟩ rest ⟨max now t, .fault g, rest⟩
  | whole (t : Nat) (b : Bytes) (rest : Inflow) (hb : b ≠ []) : Takes now ⟨t, .bytes b⟩ rest ⟨max now t, .bytes b, rest⟩
  | part (t : Nat) (b c : Bytes) (rest : Inflow) (hb : b ≠ []) :
      Takes now ⟨t, .bytes (b ++ c)⟩ rest ⟨max now t, .bytes b, ⟨t, .bytes c⟩ :: rest⟩

theorem blank_nil : Blank [] := fun _ h => absurd h List.not_mem_nil

theorem Blank.cons {i : Inflow} {t : Nat} (h : Blank i) : Blank (⟨t, .bytes []⟩ :: i) :=
  List.forall_mem_cons.mpr ⟨rfl, h⟩

theorem read_eq_none {room now : Nat} {i : Inflow} (h : read room now i = none) : Blank i := by
  induction i with
  | nil => exact blank_nil
  | cons a rest ih =>
    obtain ⟨t, what⟩ := a
    unfold read at h
    simp only at h
    split at h
    · exact (ih h).cons
    · cases h
    · cases h
    · cases h

/-- Everything that a read can do. -/
theorem read_eq_some {room now : Nat} {i : Inflow} {f : Found} (hroom : 0 < room) (h : read room now i = some f) :
    ∃ skipped a rest, i = skipped ++ a :: rest ∧ Blank skipped ∧ Takes now a rest f := by
  induction i with
  | nil => cases h
  | cons a rest ih =>
    obtain ⟨t, what⟩ := a
    unfold read at h
    simp only at h
    split at h
    · obtain ⟨skipped, a, behind, rfl, hs, ht⟩ := ih h
      exact ⟨⟨t, .bytes []⟩ :: skipped, a, behind, rfl, hs.cons, ht⟩
    · next x b =>
      cases h
      refine ⟨[], _, rest, rfl, blank_nil, ?_⟩
      have hne : (x :: b).take room ≠ [] := by
        obtain ⟨n, rfl⟩ := Nat.exists_eq_succ_of_ne_zero (Nat.ne_of_gt hroom)
        exact List.cons_ne_nil _ _
      split
      · next hnil =>
        rw [List.take_of_length_le (List.drop_eq_nil_iff.mp hnil)]
        exact .whole t (x :: b) rest (List.cons_ne_nil _ _)
      · have hcut : Takes now ⟨t, .bytes ((x :: b).take room ++ (x :: b).drop room)⟩ rest _ := .part t _ _ rest hne
        rwa [List.take_append_drop] at hcut
    · cases h
      exact ⟨[], _, rest, rfl, blank_nil, .eof t rest⟩
    · next g =>
      cases h
      exact ⟨[], _, rest, rfl, blank_nil, .fault t g rest⟩

theorem le_time_of_read {room now : Nat} {i : Inflow} {f : Found} (hroom : 0 < room) (h : read room now i = some f) :
    now ≤ f.time := by
  obtain ⟨skipped, a, rest, -, -, ht⟩ := read_eq_some hroom h
  cases ht <;> exact Nat.le_max_left _ _

/-! ### The stream -/

/-- The bytes in front of the end of the stream, across the faults between them. -/
def stream : Inflow → Bytes
  | [] => []
  | ⟨_, .bytes b⟩ :: rest => b ++ stream rest
  | ⟨_, .eof⟩ :: _ => []
  | ⟨_, .fault _⟩ :: rest => stream rest

def faults : Inflow → List Fault
  | [] => []
  | ⟨_, .bytes _⟩ :: rest => faults rest
  | ⟨_, .eof⟩ :: _ => []
  | ⟨_, .fault f⟩ :: rest => f :: faults rest

theorem Blank.stream_append {s : Inflow} (h : Blank s) (i : Inflow) : stream (s ++ i) = stream i := by
  induction s with
  | nil => rfl
  | cons a s ih =>
    obtain ⟨t, what⟩ := a
    obtain ⟨rfl, hs⟩ := List.forall_mem_cons.mp h
    exact ih hs

/-! ### What is there in time -/

/-- Bytes that can be read by an instant: those of the first arrivals, up to one that comes later. -/
def arrived (limit : Nat) : Inflow → Bytes
  | ⟨t, .bytes b⟩ :: rest => if t ≤ limit then b ++ arrived limit rest else []
  | _ => []

theorem Blank.arrived_append {s : Inflow} (h : Blank s) (limit : Nat) (i : Inflow) :
    arrived limit (s ++ i) <+: arrived limit i := by
  induction s with
  | nil => exact List.prefix_rfl
  | cons a s ih =>
    obtain ⟨t, what⟩ := a
    obtain ⟨rfl, hs⟩ := List.forall_mem_cons.mp h
    rw [List.cons_append, arrived]
    split
    · exact ih hs
    · exact List.nil_prefix

/-- A read takes from the bytes that are there in time, and is then in time itself. -/
theorem read_arrived {room now limit : Nat} {i : Inflow} {f : Found} (hroom : 0 < room) (hnow : now ≤ limit)
    (h : read room now i = some f) : arrived limit i = [] ∨
      f.time ≤ limit ∧ ∃ b, f.what = .bytes b ∧ arrived limit i <+: b ++ arrived limit f.rest := by
  obtain ⟨skipped, a, rest, rfl, hs, ht⟩ := read_eq_some hroom h
  have hskip := hs.arrived_append limit (a :: rest)
  cases ht with
  | eof => exact Or.inl (List.prefix_nil.mp hskip)
  | fault => exact Or.inl (List.prefix_nil.mp hskip)
  | whole t b rest =>
    rw [arrived] at hskip
    split at hskip
    · next hle => exact Or.inr ⟨Nat.max_le.mpr ⟨hnow, hle⟩, b, rfl, hskip⟩
    · exact Or.inl (List.prefix_nil.mp hskip)
  | part t b c rest =>
    rw [arrived] at hskip
    split at hskip
    · next hle =>
      refine Or.inr ⟨Nat.max_le.mpr ⟨hnow, hle⟩, b, rfl, ?_⟩
      rwa [arrived, if_pos hle, ← List.append_assoc]
    · exact Or.inl (List.prefix_nil.mp hskip)

end Inflow
end CallRelay
