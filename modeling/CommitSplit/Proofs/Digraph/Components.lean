import CommitSplit.Proofs.Digraph.Reachability
import Mathlib.Data.List.Nodup
import Mathlib.Data.List.Sort

/-!
# The cyclic components are the classes of mutual reachability

Mutual reachability by at least one step is symmetric and transitive, and the nodes for which it is
reflexive are those on a cycle. `cyclicComponents` lists its classes, each once and in ascending
order, by ascending first member.
-/

namespace CommitSplit.Digraph

variable {size : Nat} {successors : Nat → List Nat}

/-- Each of two nodes can be reached from the other by at least one step. -/
def Mutual (successors : Nat → List Nat) (i j : Nat) : Prop :=
  Relation.TransGen (Edge successors) i j ∧ Relation.TransGen (Edge successors) j i

namespace Mutual

variable {i j k : Nat}

theorem symm (h : Mutual successors i j) : Mutual successors j i :=
  ⟨h.2, h.1⟩

theorem trans (h : Mutual successors i j) (h' : Mutual successors j k) : Mutual successors i k :=
  ⟨h.1.trans h'.1, h'.2.trans h.2⟩

theorem left (h : Mutual successors i j) : Mutual successors i i :=
  h.trans h.symm

/-- A node that reaches itself is in its own class. -/
theorem self_iff : Mutual successors i i ↔ Relation.TransGen (Edge successors) i i :=
  and_self_iff

theorem congr_left (h : Mutual successors i j) : Mutual successors i k ↔ Mutual successors j k :=
  ⟨h.symm.trans, h.trans⟩

end Mutual

/-- The members of a class: ascending, and all of them. -/
structure IsClassOf (size : Nat) (successors : Nat → List Nat) (i : Nat) (members : List Nat) :
    Prop where
  ascending : members.Sublist (List.range size)
  mem_iff : ∀ j, j ∈ members ↔ Mutual successors i j

namespace IsClassOf

variable {i j : Nat} {members : List Nat}

/-- A class has one ascending list of members, whichever of them it is named after. -/
theorem unique {members' : List Nat} (h : IsClassOf size successors i members)
    (h' : IsClassOf size successors j members') (same : Mutual successors i j) :
    members = members' := by
  apply List.Perm.eq_of_pairwise' (List.pairwise_lt_range.sublist h.ascending)
    (List.pairwise_lt_range.sublist h'.ascending)
  rw [List.perm_ext_iff_of_nodup (List.nodup_range.sublist h.ascending)
    (List.nodup_range.sublist h'.ascending)]
  intro k
  rw [h.mem_iff, h'.mem_iff, same.congr_left]

end IsClassOf

/-- The nodes on a cycle, as `cyclicComponents` selects them. -/
def cyclicNodes (size : Nat) (successors : Nat → List Nat) : List Nat :=
  (List.range size).filter fun node => reaches (reachTable size successors) node node

/-- The class of a node, as `cyclicComponents` selects it. -/
def classOf (size : Nat) (successors : Nat → List Nat) (node : Nat) : List Nat :=
  (cyclicNodes size successors).filter fun other =>
    reaches (reachTable size successors) node other &&
      reaches (reachTable size successors) other node

theorem cyclicComponents_eq (size : Nat) (successors : Nat → List Nat) :
    cyclicComponents size successors =
      (cyclicNodes size successors).filterMap fun node =>
        if (classOf size successors node).head? = some node then
          some (classOf size successors node)
        else none := rfl

theorem mem_cyclicNodes (bounded : Bounded size successors) {i : Nat} :
    i ∈ cyclicNodes size successors ↔ Mutual successors i i := by
  rw [cyclicNodes, List.mem_filter, List.mem_range, Mutual.self_iff]
  constructor
  · rintro ⟨hi, h⟩
    exact (reaches_reachTable bounded hi).mp h
  · intro h
    have hi := bounded.lt_of_transGen h
    exact ⟨hi, (reaches_reachTable bounded hi).mpr h⟩

theorem isClassOf_classOf (bounded : Bounded size successors) {i : Nat} (hi : i < size) :
    IsClassOf size successors i (classOf size successors i) where
  ascending := List.filter_sublist.trans List.filter_sublist
  mem_iff j := by
    rw [classOf, List.mem_filter, mem_cyclicNodes bounded, Bool.and_eq_true,
      reaches_reachTable bounded hi]
    constructor
    · rintro ⟨cyclic, forth, back⟩
      have hj := bounded.lt_of_transGen cyclic.1
      exact ⟨forth, (reaches_reachTable bounded hj).mp back⟩
    · intro h
      have hj := bounded.lt_of_transGen h.1
      exact ⟨h.symm.left, h.1, (reaches_reachTable bounded hj).mpr h.2⟩

/-- The components are the classes that begin with the node they are named after. -/
theorem mem_cyclicComponents (bounded : Bounded size successors) {members : List Nat} :
    members ∈ cyclicComponents size successors ↔
      ∃ i, IsClassOf size successors i members ∧ members.head? = some i := by
  rw [cyclicComponents_eq, List.mem_filterMap]
  constructor
  · rintro ⟨i, hi, h⟩
    rw [mem_cyclicNodes bounded] at hi
    obtain ⟨first, rfl⟩ : (classOf size successors i).head? = some i ∧
        classOf size successors i = members := by
      simpa using h
    exact ⟨i, isClassOf_classOf bounded (bounded.lt_of_transGen hi.1), first⟩
  · rintro ⟨i, h, first⟩
    have hi : Mutual successors i i := (h.mem_iff i).mp (List.mem_of_mem_head? first)
    have named := isClassOf_classOf bounded (bounded.lt_of_transGen hi.1)
    obtain rfl := h.unique named hi
    exact ⟨i, (mem_cyclicNodes bounded).mpr hi, if_pos first⟩

/-- Two nodes are in one component exactly when each can be reached from the other. -/
theorem exists_component_iff (bounded : Bounded size successors) {i j : Nat} :
    (∃ members ∈ cyclicComponents size successors, i ∈ members ∧ j ∈ members) ↔
      Mutual successors i j := by
  constructor
  · rintro ⟨members, hm, hi, hj⟩
    obtain ⟨k, h, -⟩ := (mem_cyclicComponents bounded).mp hm
    exact ((h.mem_iff i).mp hi).symm.trans ((h.mem_iff j).mp hj)
  · intro h
    have named := isClassOf_classOf bounded (bounded.lt_of_transGen h.2)
    have hi : i ∈ classOf size successors i := (named.mem_iff i).mpr h.left
    have hj : j ∈ classOf size successors i := (named.mem_iff j).mpr h
    obtain ⟨k, first⟩ : ∃ k, (classOf size successors i).head? = some k :=
      ⟨_, List.head?_eq_some_head (List.ne_nil_of_mem hi)⟩
    have hk : Mutual successors i k := (named.mem_iff k).mp (List.mem_of_mem_head? first)
    refine ⟨_, (mem_cyclicComponents bounded).mpr ⟨k, ⟨named.ascending, ?_⟩, first⟩, hi, hj⟩
    intro l
    rw [named.mem_iff, hk.congr_left]

/-- The components come by ascending first member. -/
theorem heads_cyclicComponents_sublist (size : Nat) (successors : Nat → List Nat) :
    ((cyclicComponents size successors).filterMap List.head?).Sublist (List.range size) := by
  have heads : (cyclicComponents size successors).filterMap List.head? =
      (cyclicNodes size successors).filter fun node =>
        (classOf size successors node).head? = some node := by
    rw [cyclicComponents_eq, List.filterMap_filterMap, ← List.filterMap_eq_filter]
    apply List.filterMap_congr
    intro node _
    by_cases first : (classOf size successors node).head? = some node
    · simp [Option.guard, first]
    · simp [Option.guard, first]
  rw [heads]
  exact List.filter_sublist.trans List.filter_sublist

/-- A component has members, each of them once. -/
theorem ne_nil_of_mem_cyclicComponents (bounded : Bounded size successors) {members : List Nat}
    (h : members ∈ cyclicComponents size successors) : members ≠ [] := by
  obtain ⟨i, -, first⟩ := (mem_cyclicComponents bounded).mp h
  exact List.ne_nil_of_mem (List.mem_of_mem_head? first)

theorem sublist_of_mem_cyclicComponents (bounded : Bounded size successors) {members : List Nat}
    (h : members ∈ cyclicComponents size successors) : members.Sublist (List.range size) := by
  obtain ⟨i, named, -⟩ := (mem_cyclicComponents bounded).mp h
  exact named.ascending

/-- Components that share a node are one and the same. -/
theorem eq_of_mem_cyclicComponents (bounded : Bounded size successors) {members members' : List Nat}
    (h : members ∈ cyclicComponents size successors)
    (h' : members' ∈ cyclicComponents size successors) {i : Nat} (hi : i ∈ members)
    (hi' : i ∈ members') : members = members' := by
  obtain ⟨j, named, -⟩ := (mem_cyclicComponents bounded).mp h
  obtain ⟨k, named', -⟩ := (mem_cyclicComponents bounded).mp h'
  exact named.unique named' (((named.mem_iff i).mp hi).trans ((named'.mem_iff i).mp hi').symm)

/-- No node is listed twice, neither in one component nor in two. -/
theorem nodup_flatten_cyclicComponents (bounded : Bounded size successors) :
    (cyclicComponents size successors).flatten.Nodup := by
  have once : (cyclicComponents size successors).Nodup := by
    rw [cyclicComponents_eq]
    apply (List.nodup_range.filter _).filterMap
    intro i j members hi hj
    -- A component determines the node that it is named after: its first member.
    obtain ⟨first, rfl⟩ : (classOf size successors i).head? = some i ∧
        classOf size successors i = members := by
      simpa using hi
    obtain ⟨first', same⟩ : (classOf size successors j).head? = some j ∧
        classOf size successors j = classOf size successors i := by
      simpa using hj
    rw [same, first] at first'
    exact Option.some_inj.mp first'
  rw [List.nodup_flatten]
  constructor
  · intro members h
    exact List.nodup_range.sublist (sublist_of_mem_cyclicComponents bounded h)
  · apply once.pairwise_of_forall_ne
    intro members h members' h' different i hi hi'
    exact different (eq_of_mem_cyclicComponents bounded h h' hi hi')

end CommitSplit.Digraph
