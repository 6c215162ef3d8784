/-!
# First-seen order

Lists without repetitions that keep each element where it was met first. Imports and exports of a
module, the files of a change set and the dependencies of a file are all kept this way.
-/

namespace CommitSplit.FirstSeen

variable {α : Type} [DecidableEq α]

/-- Appends an element unless it is there already. -/
def add (seen : List α) (x : α) : List α :=
  if x ∈ seen then seen else seen ++ [x]

/-- The elements of a list, each at the place of its first occurrence. -/
def of (xs : List α) : List α :=
  xs.foldl add []

@[simp]
theorem mem_add {seen : List α} {x y : α} : y ∈ add seen x ↔ y ∈ seen ∨ y = x := by
  unfold add
  split
  · rename_i known
    exact ⟨Or.inl, fun h => h.elim id fun e => e ▸ known⟩
  · simp

theorem nodup_add {seen : List α} (x : α) (h : seen.Nodup) : (add seen x).Nodup := by
  unfold add
  split
  · exact h
  · rename_i unknown
    refine List.nodup_append.2 ⟨h, by simp, ?_⟩
    intro a ha b hb
    simp only [List.mem_singleton] at hb
    exact fun e => unknown (hb ▸ e ▸ ha)

end CommitSplit.FirstSeen
