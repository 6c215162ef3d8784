import CommitSplit.Risk
import Mathlib.Order.Bounds.Defs
import Mathlib.Order.MinMax

/-!
# The greatest risk

Levels are ordered by their ranks. The maximum of some levels is one of them that none exceeds.
-/

namespace CommitSplit.Risk

variable {a b c : Risk} {levels : List Risk}

theorem rank_injective (same : a.rank = b.rank) : a = b := by
  cases a <;> cases b <;> first | rfl | cases same

instance : LinearOrder Risk where
  le_refl a := Nat.le_refl a.rank
  le_trans a b c := Nat.le_trans
  le_antisymm a b h h' := rank_injective (Nat.le_antisymm h h')
  le_total a b := Nat.le_total a.rank b.rank
  toDecidableLE := inferInstance
  toDecidableEq := inferInstance
  max := Risk.max

@[simp] theorem low_le (a : Risk) : low ≤ a := Nat.zero_le _

@[simp] theorem le_high (a : Risk) : a ≤ high := by
  cases a <;> decide

/-- Apart from the highest level only the medium one has to be reached. -/
theorem le_iff_of_ne_high (not_high : a ≠ high) : a ≤ c ↔ a = low ∨ medium ≤ c := by
  cases a with
  | low => simp
  | medium => simp
  | high => exact absurd rfl not_high

theorem foldl_max_le_iff : levels.foldl max a ≤ c ↔ a ≤ c ∧ ∀ b ∈ levels, b ≤ c := by
  induction levels generalizing a with
  | nil => simp
  | cons b levels ih =>
      have first : max a b ≤ c ↔ a ≤ c ∧ b ≤ c := max_le_iff
      rw [List.foldl_cons, ih, first, List.forall_mem_cons, and_assoc]

theorem foldl_max_mem (levels : List Risk) (a : Risk) : levels.foldl max a ∈ a :: levels := by
  induction levels generalizing a with
  | nil => exact List.mem_cons_self
  | cons b levels ih =>
      have first : max a b = a ∨ max a b = b := max_choice a b
      have there := ih (max a b)
      rw [List.foldl_cons]
      rcases first with same | same <;> rw [same] at there ⊢
      · exact List.cons_subset_cons a (List.subset_cons_self b levels) there
      · exact List.mem_cons_of_mem a there

theorem maximum_le_iff : maximum levels ≤ c ↔ ∀ b ∈ levels, b ≤ c := by
  rw [maximum, foldl_max_le_iff, and_iff_right (low_le c)]

theorem le_maximum (there : a ∈ levels) : a ≤ maximum levels :=
  maximum_le_iff.mp le_rfl a there

/-- The order of the levels does not matter. -/
theorem maximum_eq_of_perm {levels' : List Risk} (perm : levels.Perm levels') :
    maximum levels = maximum levels' :=
  le_antisymm (maximum_le_iff.mpr fun _ there => le_maximum (perm.mem_iff.mp there))
    (maximum_le_iff.mpr fun _ there => le_maximum (perm.mem_iff.mpr there))

/-- The maximum is one of the levels, if there are any. -/
theorem maximum_mem (some_level : levels ≠ []) : maximum levels ∈ levels := by
  rcases List.mem_cons.mp (foldl_max_mem levels low) with lowest | there
  · obtain ⟨a, ha⟩ := List.exists_mem_of_ne_nil _ some_level
    have least : a ≤ low := lowest ▸ le_maximum ha
    rwa [maximum, lowest, ← le_antisymm least (low_le a)]
  · exact there

/-- What the maximum reaches is reached by one of the levels. -/
theorem le_maximum_iff (some_level : levels ≠ []) : c ≤ maximum levels ↔ ∃ a ∈ levels, c ≤ a := by
  constructor
  · exact fun reached => ⟨_, maximum_mem some_level, reached⟩
  · rintro ⟨a, there, reached⟩
    exact reached.trans (le_maximum there)

/-- When each file has the greatest level that it poses, the maximum is the greatest that any of
them poses. -/
theorem isGreatest_maximum {α : Type} {files : List α} {level : α → Risk}
    (poses : α → Risk → Prop) (some_file : files ≠ [])
    (each : ∀ file ∈ files, IsGreatest {risk | poses file risk} (level file)) :
    IsGreatest {risk | ∃ file ∈ files, poses file risk} (maximum (files.map level)) := by
  constructor
  · obtain ⟨file, there, same⟩ := List.mem_map.mp (maximum_mem (by simpa using some_file))
    rw [← same]
    exact ⟨file, there, (each file there).1⟩
  · rintro risk ⟨file, there, posed⟩
    exact ((each file there).2 posed).trans (le_maximum (List.mem_map_of_mem there))

/-- Greater levels have a greater maximum. -/
theorem maximum_mono {α : Type} {files : List α} {level level' : α → Risk}
    (le : ∀ file ∈ files, level file ≤ level' file) :
    maximum (files.map level) ≤ maximum (files.map level') := by
  rw [maximum_le_iff]
  intro risk there
  obtain ⟨file, hfile, rfl⟩ := List.mem_map.mp there
  exact (le file hfile).trans (le_maximum (List.mem_map_of_mem hfile))

end CommitSplit.Risk
