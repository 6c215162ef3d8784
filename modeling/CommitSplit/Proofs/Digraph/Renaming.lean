import CommitSplit.Proofs.Digraph.Traversal

/-!
# Traversals of renamed nodes

What a traversal finds does not depend on the numbers of the nodes, nor on nodes that it does not
get to. When the nodes of two digraphs are related one to one and related nodes have related
successors in the same order, walks from related roots take the same steps: they mark related nodes
alike and list them in the same order. Only the fuel of the two walks may differ, and both have
enough of it.
-/

namespace CommitSplit.Digraph

/-- Related nodes of two digraphs have related successors. What is outside of the relation is
free. -/
structure Renames (rel : Nat → Nat → Prop) (size size' : Nat)
    (successors successors' : Nat → List Nat) : Prop where
  left_lt : ∀ {i j}, rel i j → i < size
  right_lt : ∀ {i j}, rel i j → j < size'
  eq_iff : ∀ {i j i' j'}, rel i j → rel i' j' → (i = i' ↔ j = j')
  successors : ∀ {i j}, rel i j → List.Forall₂ rel (successors i) (successors' j)

variable {rel : Nat → Nat → Prop} {size size' : Nat} {successors successors' : Nat → List Nat}
  {roots roots' : List Nat}

namespace Walk

/-- One walk is at the related nodes of the other digraph when another walk is at its own. -/
structure Mirrors (rel : Nat → Nat → Prop) (size size' : Nat) (w w' : Walk) : Prop where
  size_eq : w.marks.size = size
  size_eq' : w'.marks.size = size'
  mark_eq : ∀ {i j}, rel i j → w.mark i = w'.mark j
  cyclic_eq : w.cyclic = w'.cyclic
  finished : List.Forall₂ rel w.finished w'.finished
  stack : List.Forall₂
    (fun frame frame' => rel frame.1 frame'.1 ∧ List.Forall₂ rel frame.2 frame'.2) w.stack w'.stack

namespace Mirrors

variable {w w' : Walk} {node node' : Nat}

theorem start (renames : Renames rel size size' successors successors') :
    Mirrors rel size size' (start size) (start size') where
  size_eq := by simp [Walk.start]
  size_eq' := by simp [Walk.start]
  mark_eq related := by
    simp [Walk.start, mark, renames.left_lt related, renames.right_lt related]
  cyclic_eq := rfl
  finished := .nil
  stack := .nil

/-- Marking related nodes alike keeps the marks alike. -/
theorem mark_set_eq (renames : Renames rel size size' successors successors')
    (h : Mirrors rel size size' w w') (related : rel node node') (m : Mark) {i j : Nat}
    (there : rel i j) :
    (w.marks.setIfInBounds node m).getD i .done =
      (w'.marks.setIfInBounds node' m).getD j .done := by
  have inside : node < w.marks.size := by
    rw [h.size_eq]
    exact renames.left_lt related
  have inside' : node' < w'.marks.size := by
    rw [h.size_eq']
    exact renames.right_lt related
  rw [getD_setIfInBounds inside, getD_setIfInBounds inside']
  simp only [renames.eq_iff there related]
  split
  · rfl
  · exact h.mark_eq there

theorem enter (renames : Renames rel size size' successors successors')
    (h : Mirrors rel size size' w w') (related : rel node node') :
    Mirrors rel size size' (w.enter successors node) (w'.enter successors' node') where
  size_eq := by simpa [Walk.enter] using h.size_eq
  size_eq' := by simpa [Walk.enter] using h.size_eq'
  mark_eq := h.mark_set_eq renames related .inProgress
  cyclic_eq := h.cyclic_eq
  finished := h.finished
  stack := .cons ⟨related, renames.successors related⟩ h.stack

theorem step (renames : Renames rel size size' successors successors')
    (h : Mirrors rel size size' w w') :
    Mirrors rel size size' (w.step successors) (w'.step successors') := by
  obtain ⟨marks, cyclic, finished, stack⟩ := w
  obtain ⟨marks', cyclic', finished', stack'⟩ := w'
  cases h.stack with
  | nil => exact h
  | @cons frame frame' stack stack' first others =>
      obtain ⟨node, rest⟩ := frame
      obtain ⟨node', rest'⟩ := frame'
      obtain ⟨related, left⟩ := first
      cases left with
      | nil =>
          exact {
            size_eq := (Array.size_setIfInBounds ..).trans h.size_eq
            size_eq' := (Array.size_setIfInBounds ..).trans h.size_eq'
            mark_eq := h.mark_set_eq renames related .done
            cyclic_eq := h.cyclic_eq
            finished := .cons related h.finished
            stack := others }
      | @cons next next' rest rest' first left =>
          have same : mark _ next = mark _ next' := h.mark_eq first
          have shorter : Mirrors rel size size' ⟨marks, cyclic, finished, (node, rest) :: stack⟩
              ⟨marks', cyclic', finished', (node', rest') :: stack'⟩ :=
            ⟨h.size_eq, h.size_eq', h.mark_eq, h.cyclic_eq, h.finished,
              .cons ⟨related, left⟩ others⟩
          simp only [Walk.step, same]
          split
          · exact shorter.enter renames first
          · exact ⟨h.size_eq, h.size_eq', h.mark_eq, rfl, h.finished, shorter.stack⟩
          · exact shorter

theorem outside_iff (h : Mirrors rel size size' w w') : w.stack = [] ↔ w'.stack = [] := by
  rw [← List.length_eq_zero_iff, ← List.length_eq_zero_iff, h.stack.length_eq]

/-- Two runs that get outside of all nodes take the same steps, whatever fuel they have. -/
theorem run (renames : Renames rel size size' successors successors')
    (h : Mirrors rel size size' w w') {fuel fuel' : Nat}
    (ended : (run successors fuel w).stack = [])
    (ended' : (Walk.run successors' fuel' w').stack = []) :
    Mirrors rel size size' (Walk.run successors fuel w) (Walk.run successors' fuel' w') := by
  induction fuel generalizing fuel' w w' with
  | zero =>
      rw [run_of_outside (h.outside_iff.mp ended)]
      exact h
  | succ fuel ih =>
      by_cases outside : w.stack = []
      · rw [run_of_outside outside, run_of_outside (h.outside_iff.mp outside)]
        exact h
      · have outside' := mt h.outside_iff.mpr outside
        cases fuel' with
        | zero => exact absurd ended' outside'
        | succ fuel' =>
            rw [run_of_inside outside] at ended ⊢
            rw [run_of_inside outside'] at ended' ⊢
            exact ih (h.step renames) ended ended'

variable (renames : Renames rel size size' successors successors')
  (bounded : Bounded size successors) (bounded' : Bounded size' successors')

include renames bounded bounded'

/-- Visits to related roots end between roots, so both had enough fuel. -/
theorem visit (h : Mirrors rel size size' w w') (between : Between size successors roots w)
    (between' : Between size' successors' roots' w') {root root' : Nat} (hroot : root ∈ roots)
    (hroot' : root' ∈ roots') (related : rel root root') :
    Mirrors rel size size' (visit successors (effort size successors) w root)
      (Walk.visit successors' (effort size' successors') w' root') := by
  have ended := (between_visit bounded between hroot (renames.left_lt related)).1.outside
  have ended' := (between_visit bounded' between' hroot' (renames.right_lt related)).1.outside
  rw [Walk.visit, h.mark_eq related] at ended ⊢
  rw [Walk.visit] at ended' ⊢
  split at ended
  · rename_i fresh
    rw [if_pos fresh] at ended'
    rw [if_pos fresh, if_pos fresh]
    exact (h.enter renames related).run renames ended ended'
  · rename_i met
    rw [if_neg met, if_neg met]
    exact h

theorem visits {visited visited' : List Nat} (related : List.Forall₂ rel visited visited')
    (h : Mirrors rel size size' w w') (between : Between size successors roots w)
    (between' : Between size' successors' roots' w') (known : visited ⊆ roots)
    (known' : visited' ⊆ roots') :
    Mirrors rel size size' (visited.foldl (Walk.visit successors (effort size successors)) w)
      (visited'.foldl (Walk.visit successors' (effort size' successors')) w') := by
  induction related generalizing w w' with
  | nil => exact h
  | cons first _ ih =>
      obtain ⟨hroot, known⟩ := List.cons_subset.mp known
      obtain ⟨hroot', known'⟩ := List.cons_subset.mp known'
      have visited := h.visit renames bounded bounded' between between' hroot hroot' first
      exact ih visited (between_visit bounded between hroot (renames.left_lt first)).1
        (between_visit bounded' between' hroot' (renames.right_lt first)).1 known known'

end Mirrors

end Walk

/-- Traversals from related roots see a cycle in both digraphs or in neither, and their orders list
related nodes. -/
theorem Renames.traverse (renames : Renames rel size size' successors successors')
    (bounded : Bounded size successors) (bounded' : Bounded size' successors')
    (related : List.Forall₂ rel roots roots') :
    (traverse size successors roots).cyclic = (traverse size' successors' roots').cyclic ∧
      List.Forall₂ rel (traverse size successors roots).order
        (traverse size' successors' roots').order := by
  have mirrors : Walk.Mirrors rel size size' (Walk.full size successors roots)
      (Walk.full size' successors' roots') :=
    Walk.Mirrors.visits renames bounded bounded' related (.start renames)
      ⟨Walk.Sound.start size successors roots, rfl⟩ ⟨Walk.Sound.start size' successors' roots', rfl⟩
      (List.Subset.refl _) (List.Subset.refl _)
  exact ⟨mirrors.cyclic_eq, List.forall₂_reverse_iff.mpr mirrors.finished⟩

end CommitSplit.Digraph
