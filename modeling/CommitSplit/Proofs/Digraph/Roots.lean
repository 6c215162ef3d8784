import CommitSplit.Proofs.Digraph.Traversal

/-!
# Roots that are in order already

A traversal lists what it finds from its first roots in front of what further roots add. So roots
that lead to each other only, and never forward, are listed as they were given.
-/

namespace CommitSplit.Digraph

variable {size : Nat} {successors : Nat → List Nat} {roots : List Nat}

namespace Walk

theorem finished_suffix_visit (successors : Nat → List Nat) (fuel : Nat) (w : Walk) (root : Nat) :
    w.finished <:+ (visit successors fuel w root).finished := by
  rw [visit]
  split
  · exact run_keeps (P := fun w' => w.finished <:+ w'.finished)
      (fun _ _ m kept => kept.trans m.finished_suffix) fuel List.suffix_rfl
  · exact List.suffix_rfl

theorem finished_suffix_visits (successors : Nat → List Nat) (fuel : Nat) (roots : List Nat)
    (w : Walk) : w.finished <:+ (roots.foldl (visit successors fuel) w).finished := by
  induction roots generalizing w with
  | nil => exact List.suffix_rfl
  | cons root roots ih => exact (finished_suffix_visit successors fuel w root).trans (ih _)

end Walk

/-- Further roots add to the end of the order. -/
theorem order_traverse_prefix (size : Nat) (successors : Nat → List Nat) (roots more : List Nat) :
    (traverse size successors roots).order <+:
      (traverse size successors (roots ++ more)).order := by
  rw [traverse_eq, traverse_eq, List.reverse_prefix, Walk.full, Walk.full, List.foldl_append]
  exact Walk.finished_suffix_visits successors _ more _

/-- Roots of which none leads forward or to something else are listed as they are. -/
theorem order_traverse_of_forward (bounded : Bounded size successors)
    (nodes : ∀ r ∈ roots, r < size) (nodup : roots.Nodup)
    (closed : ∀ i ∈ roots, ∀ j, Edge successors i j → j ∈ roots)
    (forward : roots.Pairwise fun i j => ¬Edge successors i j) :
    (traverse size successors roots).order = roots := by
  induction roots using List.reverseRecOn with
  | nil => rfl
  | append_singleton front r ih =>
      obtain ⟨earlier, -, last⟩ := List.pairwise_append.mp forward
      have closed_front : ∀ i ∈ front, ∀ j, Edge successors i j → j ∈ front := by
        intro i hi j edge
        rcases List.mem_append.mp (closed i (List.mem_append_left _ hi) j edge) with hj | hj
        · exact hj
        · obtain rfl := List.mem_singleton.mp hj
          exact absurd edge (last i hi j hj)
      have listed := ih (fun i hi => nodes i (List.mem_append_left _ hi))
        (List.nodup_append.mp nodup).1 closed_front earlier
      obtain ⟨added, order⟩ := order_traverse_prefix size successors front [r]
      rw [listed] at order
      -- What is added to the order of the front is what is new in the list of all roots.
      have perm : (front ++ added).Perm (front ++ [r]) := by
        rw [order, List.perm_ext_iff_of_nodup (nodup_order_traverse bounded nodes) nodup]
        intro i
        rw [mem_order_traverse bounded nodes, reached_iff_of_closed closed]
      rw [← order, List.perm_singleton.mp ((List.perm_append_left_iff front).mp perm)]

end CommitSplit.Digraph
