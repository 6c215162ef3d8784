import CommitSplit.Digraph.Cycle
import Mathlib.Algebra.Order.BigOperators.Group.Finset
import Mathlib.Algebra.Order.BigOperators.Group.List
import Mathlib.Algebra.Order.Ring.Nat
import Mathlib.Logic.Relation

/-!
# Reachability in digraphs

The successors of each node are a relation, and its closures say what can be reached. The marks that
`spread` leaves are exactly the nodes reachable from those that were left to do, so that `reach` and
the table made of it decide the transitive closure.

The searches on a digraph end because each step of them pays for one unit of work, and the work that
lies in nodes never met is a sum over the nodes that are still open. Both searches count it by
`openWork`.
-/

namespace CommitSplit.Digraph

variable {size : Nat} {successors : Nat → List Nat}

/-- One node is a direct successor of the other. -/
def Edge (successors : Nat → List Nat) (i j : Nat) : Prop :=
  j ∈ successors i

/-- All successors are nodes. -/
def Bounded (size : Nat) (successors : Nat → List Nat) : Prop :=
  ∀ ⦃i j⦄, Edge successors i j → j < size

/-- A walk that takes a step ends in a node. -/
theorem Bounded.lt_of_transGen (h : Bounded size successors) {i j : Nat}
    (walk : Relation.TransGen (Edge successors) i j) : j < size := by
  obtain ⟨k, _, last⟩ := Relation.TransGen.tail'_iff.mp walk
  exact h last

/-- A walk from a node ends in a node. -/
theorem Bounded.lt_of_reflTransGen (h : Bounded size successors) {i j : Nat} (hi : i < size)
    (walk : Relation.ReflTransGen (Edge successors) i j) : j < size := by
  rcases Relation.reflTransGen_iff_eq_or_transGen.mp walk with rfl | walk
  · exact hi
  · exact h.lt_of_transGen walk

/-- On a cycle every step is followed by another one. -/
theorem transGen_of_followed {α : Type} {r s : α → α → Prop}
    (followed : ∀ a b c, r a b → r b c → s a b) {a : α} (cycle : Relation.TransGen r a a) :
    Relation.TransGen s a a := by
  have onward : ∀ b, Relation.TransGen r a b → (∃ c, r b c) → Relation.TransGen s a b := by
    intro b walk next
    induction walk with
    | single first =>
        obtain ⟨c, next⟩ := next
        exact .single (followed _ _ _ first next)
    | tail _ last ih =>
        obtain ⟨c, next⟩ := next
        exact (ih ⟨_, last⟩).tail (followed _ _ _ last next)
  obtain ⟨c, first, -⟩ := Relation.TransGen.head'_iff.mp cycle
  exact onward a cycle ⟨c, first⟩

/-! ## Work in open nodes -/

/-- The weight of all nodes that are still open. -/
def openWork (size : Nat) (isOpen : Nat → Bool) (weight : Nat → Nat) : Nat :=
  ∑ i ∈ Finset.range size with isOpen i, weight i

/-- Closing a node takes its weight out of the sum. -/
theorem openWork_close {isOpen isOpen' : Nat → Bool} {weight : Nat → Nat} {node : Nat}
    (hnode : node < size) (wasOpen : isOpen node = true)
    (closed : ∀ i < size, isOpen' i = (isOpen i && i != node)) :
    openWork size isOpen weight = weight node + openWork size isOpen' weight := by
  have rest : (Finset.range size).filter (fun i => isOpen' i) =
      ((Finset.range size).filter fun i => isOpen i).erase node := by
    ext i
    simp only [Finset.mem_filter, Finset.mem_range, Finset.mem_erase]
    constructor
    · rintro ⟨hi, h⟩
      simpa [closed i hi, hi, and_comm] using h
    · rintro ⟨hne, hi, h⟩
      exact ⟨hi, by simp [closed i hi, h, hne]⟩
  have member : node ∈ (Finset.range size).filter fun i => isOpen i := by
    simp [hnode, wasOpen]
  rw [openWork, openWork, rest, Finset.add_sum_erase _ _ member]

/-- There is never more work in open nodes than in all nodes. -/
theorem openWork_le (size : Nat) (isOpen : Nat → Bool) (weight : Nat → Nat) :
    openWork size isOpen weight ≤ ((List.range size).map weight).sum :=
  Finset.sum_le_sum_of_subset (Finset.filter_subset _ _)

theorem effort_eq_sum (size : Nat) (successors : Nat → List Nat) :
    effort size successors =
      ((List.range size).map fun i => (successors i).length + 1).sum := by
  rw [effort, List.length_flatMap]
  induction size with
  | zero => rfl
  | succ size ih =>
      simp only [List.range_succ, List.map_append, List.sum_append, List.map_cons, List.map_nil,
        List.sum_cons, List.sum_nil] at ih ⊢
      omega

/-! ## Spreading marks -/

/-- Whether a node carries a mark; a number that is no node carries none. -/
def IsMarked (seen : Array Bool) (i : Nat) : Prop :=
  seen.getD i false = true

theorem isMarked_set {seen : Array Bool} {node i : Nat} (hnode : node < seen.size) :
    IsMarked (seen.setIfInBounds node true) i ↔ IsMarked seen i ∨ i = node := by
  unfold IsMarked
  rcases eq_or_ne i node with rfl | hne
  · simp [hnode]
  · simp [hne, hne.symm]

/-- What is left to do: one unit for each node in the list, and the successors of the nodes without
a mark. -/
def spreadWork (size : Nat) (successors : Nat → List Nat) (todo : List Nat) (seen : Array Bool) :
    Nat :=
  todo.length + openWork size (fun i => !seen.getD i true) fun i => (successors i).length

theorem spreadWork_mark (successors : Nat → List Nat) (todo : List Nat) {node : Nat}
    {seen : Array Bool} (hsize : seen.size = size) (fresh : seen.getD node true = false) :
    spreadWork size successors (node :: todo) seen =
      spreadWork size successors (successors node ++ todo) (seen.setIfInBounds node true) + 1 := by
  have hnode : node < size := by
    by_contra outside
    rw [Array.getD_eq_getD_getElem?, Array.getElem?_eq_none (by omega)] at fresh
    exact absurd fresh (by decide)
  have paid : openWork size (fun i => !seen.getD i true) (fun i => (successors i).length) =
      (successors node).length +
        openWork size (fun i => !(seen.setIfInBounds node true).getD i true)
          fun i => (successors i).length := by
    apply openWork_close hnode (by simp [fresh])
    intro i hi
    rcases eq_or_ne i node with rfl | hne
    · simp [hsize, hi]
    · simp [hne, hne.symm]
  simp only [spreadWork, List.length_cons, List.length_append]
  omega

/-- A successor of a marked node is marked or left to do. -/
def Covered (successors : Nat → List Nat) (todo : List Nat) (seen : Array Bool) : Prop :=
  ∀ ⦃i j⦄, IsMarked seen i → Edge successors i j → IsMarked seen j ∨ j ∈ todo

/-- Whatever can be reached from a marked node is marked or can be reached from a node that is left
to do. -/
theorem Covered.reach {todo : List Nat} {seen : Array Bool} (covered : Covered successors todo seen)
    {i j : Nat} (marked : IsMarked seen i)
    (walk : Relation.ReflTransGen (Edge successors) i j) :
    IsMarked seen j ∨ ∃ t ∈ todo, Relation.ReflTransGen (Edge successors) t j := by
  induction walk with
  | refl => exact Or.inl marked
  | tail _ last ih =>
      rcases ih with marked | ⟨t, ht, walk⟩
      · rcases covered marked last with marked | hj
        · exact Or.inl marked
        · exact Or.inr ⟨_, hj, .refl⟩
      · exact Or.inr ⟨t, ht, walk.tail last⟩

/-- A node with a mark need not be left to do. -/
theorem Covered.skip {node : Nat} {todo : List Nat} {seen : Array Bool}
    (covered : Covered successors (node :: todo) seen) (marked : IsMarked seen node) :
    Covered successors todo seen := by
  intro i j hi edge
  rcases covered hi edge with hj | hj
  · exact Or.inl hj
  · rcases List.mem_cons.mp hj with rfl | hj
    · exact Or.inl marked
    · exact Or.inr hj

/-- A node is marked once its successors are left to do. -/
theorem Covered.mark {node : Nat} {todo : List Nat} {seen : Array Bool}
    (covered : Covered successors (node :: todo) seen) (hnode : node < seen.size) :
    Covered successors (successors node ++ todo) (seen.setIfInBounds node true) := by
  intro i j hi edge
  rw [isMarked_set hnode] at hi ⊢
  rw [List.mem_append]
  rcases hi with hi | rfl
  · rcases covered hi edge with hj | hj
    · exact Or.inl (Or.inl hj)
    · rcases List.mem_cons.mp hj with rfl | hj
      · exact Or.inl (Or.inr rfl)
      · exact Or.inr (Or.inr hj)
  · exact Or.inr (Or.inl edge)

/-- What will have a mark in the end: all that has one, and all that can be reached from what is left
to do. -/
def IsDue (successors : Nat → List Nat) (todo : List Nat) (seen : Array Bool) (i : Nat) : Prop :=
  IsMarked seen i ∨ ∃ t ∈ todo, Relation.ReflTransGen (Edge successors) t i

theorem isDue_nil {seen : Array Bool} {i : Nat} : IsDue successors [] seen i ↔ IsMarked seen i := by
  simp [IsDue]

theorem isDue_skip {node : Nat} {todo : List Nat} {seen : Array Bool} {i : Nat}
    (covered : Covered successors todo seen) (marked : IsMarked seen node) :
    IsDue successors todo seen i ↔ IsDue successors (node :: todo) seen i := by
  constructor
  · rintro (h | ⟨t, ht, walk⟩)
    · exact Or.inl h
    · exact Or.inr ⟨t, List.mem_cons_of_mem _ ht, walk⟩
  · rintro (h | ⟨t, ht, walk⟩)
    · exact Or.inl h
    · rcases List.mem_cons.mp ht with rfl | ht
      · exact covered.reach marked walk
      · exact Or.inr ⟨t, ht, walk⟩

theorem isDue_mark {node : Nat} {todo : List Nat} {seen : Array Bool} {i : Nat}
    (hnode : node < seen.size) :
    IsDue successors (successors node ++ todo) (seen.setIfInBounds node true) i ↔
      IsDue successors (node :: todo) seen i := by
  rw [IsDue, isMarked_set hnode]
  constructor
  · rintro ((h | rfl) | ⟨t, ht, walk⟩)
    · exact Or.inl h
    · exact Or.inr ⟨_, List.mem_cons_self, .refl⟩
    · rcases List.mem_append.mp ht with ht | ht
      · exact Or.inr ⟨node, List.mem_cons_self, .head ht walk⟩
      · exact Or.inr ⟨t, List.mem_cons_of_mem _ ht, walk⟩
  · rintro (h | ⟨t, ht, walk⟩)
    · exact Or.inl (Or.inl h)
    · rcases List.mem_cons.mp ht with rfl | ht
      · rcases walk.cases_head with rfl | ⟨s, first, walk⟩
        · exact Or.inl (Or.inr rfl)
        · exact Or.inr ⟨s, List.mem_append_left _ first, walk⟩
      · exact Or.inr ⟨t, List.mem_append_right _ ht, walk⟩

/-- With enough fuel the marks that are added are those of the nodes that can be reached from what
was left to do. -/
theorem isMarked_spread (bounded : Bounded size successors) {i : Nat} (fuel : Nat)
    (todo : List Nat) (seen : Array Bool) (hsize : seen.size = size)
    (nodes : ∀ t ∈ todo, t < size) (covered : Covered successors todo seen)
    (enough : spreadWork size successors todo seen ≤ fuel) :
    IsMarked (spread successors fuel todo seen) i ↔ IsDue successors todo seen i := by
  fun_induction spread successors fuel todo seen with
  | case1 todo seen =>
      obtain rfl : todo = [] := by
        rw [spreadWork] at enough
        exact List.length_eq_zero_iff.mp (by omega)
      exact isDue_nil.symm
  | case2 => exact isDue_nil.symm
  | case3 fuel node todo seen known ih =>
      obtain ⟨hnode, others⟩ := List.forall_mem_cons.mp nodes
      have marked : IsMarked seen node := by
        simpa [IsMarked, hsize, hnode] using known
      have paid : spreadWork size successors todo seen ≤ fuel := by
        simp only [spreadWork, List.length_cons] at enough ⊢
        omega
      rw [ih hsize others (covered.skip marked) paid, isDue_skip (covered.skip marked) marked]
  | case4 fuel node todo seen fresh ih =>
      obtain ⟨hnode, others⟩ := List.forall_mem_cons.mp nodes
      have nodes' : ∀ t ∈ successors node ++ todo, t < size :=
        List.forall_mem_append.mpr ⟨fun _ ht => bounded ht, others⟩
      have paid := spreadWork_mark successors todo hsize (by simpa using fresh)
      rw [← hsize] at hnode
      rw [ih (by simpa using hsize) nodes' (covered.mark hnode) (by omega), isDue_mark hnode]

/-! ## The table of reachable nodes -/

/-- `reach` marks the nodes that are at least one step away. -/
theorem isMarked_reach (bounded : Bounded size successors) {i j : Nat} (hi : i < size) :
    IsMarked (reach size successors i) j ↔ Relation.TransGen (Edge successors) i j := by
  have unmarked : ∀ k, ¬ IsMarked (Array.replicate size false) k := by
    intro k
    by_cases hk : k < size <;> simp [IsMarked, hk]
  have enough : spreadWork size successors (successors i) (Array.replicate size false) ≤
      2 * effort size successors + 1 := by
    have own : (successors i).length ≤
        ((List.range size).map fun k => (successors k).length).sum :=
      List.le_sum_of_mem (List.mem_map_of_mem (List.mem_range.mpr hi))
    have others := openWork_le size (fun k => !(Array.replicate size false).getD k true)
      fun k => (successors k).length
    rw [spreadWork, effort, List.length_flatMap]
    omega
  rw [reach, isMarked_spread bounded _ _ _ (by simp) (fun t ht => bounded ht)
    (fun a b ha => absurd ha (unmarked a)) enough]
  rw [IsDue, Relation.TransGen.head'_iff]
  simp only [unmarked, false_or]
  rfl

theorem reaches_reachTable (bounded : Bounded size successors) {i j : Nat} (hi : i < size) :
    reaches (reachTable size successors) i j = true ↔
      Relation.TransGen (Edge successors) i j := by
  have row : (reachTable size successors).getD i #[] = reach size successors i := by
    simp [reachTable, hi]
  rw [reaches, row]
  exact isMarked_reach bounded hi

end CommitSplit.Digraph
