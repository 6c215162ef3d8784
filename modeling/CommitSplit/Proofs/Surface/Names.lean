import CommitSplit.Proofs.FirstSeen
import CommitSplit.Surface.Names

/-!
# Comparing lists of names

Only the names that are not empty count, and each of them once. Where one list is part of another,
both have the same names just if nothing is left out.
-/

namespace CommitSplit.SurfaceNames

variable {name : String} {names others : List String}

@[simp] theorem mem_tidy_iff : name ∈ tidy names ↔ name ∈ names ∧ name ≠ "" := by
  simp [tidy]

theorem sameNames_iff {xs ys : List String} :
    sameNames xs ys = true ↔ ∀ name, name ∈ xs ↔ name ∈ ys := by
  simp only [sameNames, Bool.and_eq_true, List.all_eq_true, decide_eq_true_eq]
  exact ⟨fun h name => ⟨h.1 name, h.2 name⟩, fun h => ⟨fun x => (h x).mp, fun x => (h x).mpr⟩⟩

theorem sameNames_tidy_iff (part : names ⊆ others) :
    sameNames (tidy names) (tidy others) = true ↔ ∀ name ∈ others, name ≠ "" → name ∈ names := by
  simp only [sameNames_iff, mem_tidy_iff]
  constructor
  · intro same name there some_char
    exact ((same name).mpr ⟨there, some_char⟩).1
  · intro all name
    exact ⟨fun h => ⟨part h.1, h.2⟩, fun h => ⟨all name h.1 h.2, h.2⟩⟩

end CommitSplit.SurfaceNames
