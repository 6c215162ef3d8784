import CommitSplit.FirstSeen
import Mathlib.Data.List.Basic
import Mathlib.Data.List.Induction
import Mathlib.Data.List.Nodup

/-!
# What first-seen order keeps

`FirstSeen.of` has the elements of the list, each once, in the order in which they occur first. A
list in which nothing is repeated stays as it is.
-/

namespace CommitSplit.FirstSeen

variable {α : Type} [DecidableEq α] {x : α} {xs : List α}

theorem of_append_singleton (xs : List α) (x : α) : of (xs ++ [x]) = add (of xs) x := by
  simp [of]

/-- Adding what is there already changes nothing. -/
theorem foldl_add_of_subset {seen : List α} (h : ∀ x ∈ xs, x ∈ seen) :
    xs.foldl add seen = seen := by
  induction xs with
  | nil => rfl
  | cons x xs ih =>
      obtain ⟨known, h⟩ := List.forall_mem_cons.mp h
      rw [List.foldl_cons, add, if_pos known, ih h]

@[simp] theorem mem_foldl_add {seen : List α} : x ∈ xs.foldl add seen ↔ x ∈ seen ∨ x ∈ xs := by
  induction xs generalizing seen with
  | nil => simp
  | cons y xs ih => simp [ih, or_assoc]

theorem foldl_add_foldl_add (seen xs : List α) :
    xs.foldl add (xs.foldl add seen) = xs.foldl add seen :=
  foldl_add_of_subset fun _ h => mem_foldl_add.mpr (.inr h)

@[simp] theorem mem_of : x ∈ of xs ↔ x ∈ xs := by
  simp [of]

theorem nodup_of (xs : List α) : (of xs).Nodup := by
  induction xs using List.reverseRecOn with
  | nil => exact List.nodup_nil
  | append_singleton xs y ih =>
      rw [of_append_singleton]
      exact nodup_add y ih

/-- Another order of the list is another order of what is seen. -/
theorem of_perm {ys : List α} (perm : xs.Perm ys) : (of xs).Perm (of ys) :=
  (List.perm_ext_iff_of_nodup (nodup_of xs) (nodup_of ys)).mpr fun x => by
    rw [mem_of, mem_of, perm.mem_iff]

theorem of_eq_self (nodup : xs.Nodup) : of xs = xs := by
  induction xs using List.reverseRecOn with
  | nil => rfl
  | append_singleton xs y ih =>
      obtain ⟨nodup, -, apart⟩ := List.nodup_append.mp nodup
      have fresh : y ∉ xs := fun h => apart y h y (List.mem_singleton_self y) rfl
      rw [of_append_singleton, ih nodup, add, if_neg fresh]

theorem of_append (xs ys : List α) : of (xs ++ ys) = ys.foldl add (of xs) := by
  simp [of]

/-- Leaving repetitions out before elements are renamed makes no difference after it. -/
theorem foldl_add_map_of {β : Type} [DecidableEq β] (f : α → β) (xs : List α) (seen : List β) :
    ((of xs).map f).foldl add seen = (xs.map f).foldl add seen := by
  induction xs using List.reverseRecOn with
  | nil => rfl
  | append_singleton xs y ih =>
      rw [of_append_singleton, List.map_append, List.foldl_append, ← ih, add]
      split
      · rename_i known
        have renamed : f y ∈ ((of xs).map f).foldl add seen :=
          mem_foldl_add.mpr (.inr (List.mem_map_of_mem known))
        simp [add, renamed]
      · rw [List.map_append, List.foldl_append]

theorem of_filter (p : α → Bool) (xs : List α) : of (xs.filter p) = (of xs).filter p := by
  induction xs using List.reverseRecOn with
  | nil => rfl
  | append_singleton xs y ih =>
      rw [List.filter_append, of_append_singleton]
      cases kept : p y with
      | false =>
          rw [add]
          split <;> simp [kept, ih]
      | true =>
          rw [List.filter_singleton, kept, cond_true, of_append_singleton, ih, add, add]
          simp only [List.mem_filter, mem_of, kept, and_true]
          split
          · rfl
          · simp [kept]

/-- Elements are listed in the order of their first occurrences. -/
theorem pairwise_of (xs : List α) :
    (of xs).Pairwise fun a b => xs.idxOf a < xs.idxOf b := by
  induction xs using List.reverseRecOn with
  | nil => exact .nil
  | append_singleton xs y ih =>
      have earlier : ∀ {a}, a ∈ of xs → (xs ++ [y]).idxOf a = xs.idxOf a :=
        fun ha => List.idxOf_append_of_mem (mem_of.mp ha)
      have ih' : (of xs).Pairwise fun a b => (xs ++ [y]).idxOf a < (xs ++ [y]).idxOf b := by
        apply ih.imp_of_mem
        intro a b ha hb before
        rwa [earlier ha, earlier hb]
      rw [of_append_singleton, add]
      split
      · exact ih'
      · rename_i fresh
        rw [mem_of] at fresh
        rw [List.pairwise_append]
        refine ⟨ih', List.pairwise_singleton _ _, ?_⟩
        intro a ha b hb
        obtain rfl := List.mem_singleton.mp hb
        rw [earlier ha, List.idxOf_append_of_notMem fresh]
        have := List.idxOf_lt_length_of_mem (mem_of.mp ha)
        omega

/-- A list without repetitions is in the order of its places. -/
theorem pairwise_idxOf (nodup : xs.Nodup) :
    xs.Pairwise fun a b => xs.idxOf a < xs.idxOf b := by
  simpa [of_eq_self nodup] using pairwise_of xs

theorem getElem?_of_idxOf? {i : Nat} (h : xs.idxOf? x = some i) : xs[i]? = some x := by
  obtain ⟨hi, same, -⟩ := List.findIdx?_eq_some_iff_getElem.mp h
  rw [List.getElem?_eq_getElem hi, beq_iff_eq.mp same]

/-- What is not repeated is found at its place. -/
theorem idxOf?_eq_some_iff (nodup : xs.Nodup) {i : Nat} :
    xs.idxOf? x = some i ↔ xs[i]? = some x := by
  constructor
  · exact getElem?_of_idxOf?
  · intro h
    cases found : xs.idxOf? x with
    | none => exact absurd (List.mem_of_getElem? h) (List.idxOf?_eq_none_iff.mp found)
    | some j =>
        have there := getElem?_of_idxOf? found
        have hj : j < xs.length := (List.getElem?_eq_some_iff.mp there).1
        rw [(List.getElem?_inj hj nodup).mp (there.trans h.symm)]

end CommitSplit.FirstSeen
