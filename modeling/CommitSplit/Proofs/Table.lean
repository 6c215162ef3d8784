import Mathlib.Data.List.Basic

/-!
# Tables

A table is a list of rows, each a key with a value; the first row of a key is the one that counts.
A key is unknown exactly when no row has it.
-/

namespace CommitSplit.Table

variable {κ β : Type} [BEq κ] [LawfulBEq κ] {rows : List (κ × β)} {key : κ} {value : β}

theorem lookup_eq_none_iff : rows.lookup key = none ↔ key ∉ rows.map Prod.fst := by
  rw [List.lookup_eq_none_iff, List.mem_map, not_exists]
  apply forall_congr'
  intro row
  rw [not_and, bne_iff_ne]
  exact ⟨fun h there same => h there same.symm, fun h there same => h there same.symm⟩

theorem isNone_lookup_iff : (rows.lookup key).isNone = true ↔ key ∉ rows.map Prod.fst := by
  rw [Option.isNone_iff_eq_none, lookup_eq_none_iff]

theorem isSome_lookup_iff : (rows.lookup key).isSome = true ↔ key ∈ rows.map Prod.fst := by
  rw [Option.isSome_iff_ne_none, ne_eq, lookup_eq_none_iff, not_not]

theorem mem_of_lookup_eq_some (h : rows.lookup key = some value) : (key, value) ∈ rows := by
  obtain ⟨before, behind, rfl, -⟩ := List.lookup_eq_some_iff.mp h
  simp

/-- Where every key has one row only, a search finds each of them. -/
theorem lookup_eq_some_of_mem (distinct : (rows.map Prod.fst).Nodup)
    (there : (key, value) ∈ rows) : rows.lookup key = some value := by
  obtain ⟨before, behind, rfl⟩ := List.append_of_mem there
  refine List.lookup_eq_some_iff.mpr ⟨before, behind, rfl, fun row earlier => bne_iff_ne.mpr ?_⟩
  rw [List.map_append, List.map_cons] at distinct
  exact fun same => (List.nodup_append.mp distinct).2.2 _ (List.mem_map_of_mem earlier) _
    List.mem_cons_self same.symm

theorem lookup_cons_eq_if [DecidableEq κ] (first : κ) (value : β) (rows : List (κ × β)) :
    List.lookup key ((first, value) :: rows) =
      if key = first then some value else rows.lookup key := by
  by_cases same : key = first
  · simp [same]
  · rw [List.lookup_cons, beq_false_of_ne same, if_neg same]

/-- What is the only item of its kind is the one that a search finds. -/
theorem find?_eq_some_iff_of_unique {α : Type} {p : α → Bool} {xs : List α} {x : α}
    (unique : ∀ x ∈ xs, ∀ y ∈ xs, p x = true → p y = true → x = y) :
    xs.find? p = some x ↔ x ∈ xs ∧ p x = true := by
  constructor
  · exact fun found => ⟨List.mem_of_find?_eq_some found, List.find?_some found⟩
  · rintro ⟨there, holds⟩
    cases found : xs.find? p with
    | none => exact absurd holds (List.find?_eq_none.mp found x there)
    | some y =>
        rw [unique x there y (List.mem_of_find?_eq_some found) holds (List.find?_some found)]

end CommitSplit.Table
