import CommitSplit.Graph.Order
import CommitSplit.Proofs.Digraph.Traversal
import CommitSplit.Proofs.Graph.Cycles

/-!
# Orders that put dependencies first exist exactly without cycles

The traversal that makes the order and the components that make the cycles are computed apart from
each other. They agree because both are described by the same relation: the traversal sees a cycle
exactly when some node within reach depends on itself, and that is when there is a component.
-/

namespace CommitSplit.Graph

/-- The traversal of all nodes. -/
def fullTraversal (g : Graph) : Digraph.Traversal :=
  Digraph.traverse g.size g.successors (List.range g.size)

theorem topologicalOrder_eq (g : Graph) :
    g.topologicalOrder =
      if g.fullTraversal.cyclic then .error g.cycles
      else .ok (pathsAt g.entries g.fullTraversal.order) := rfl

/-- Every node is a root, so every node is listed once. -/
theorem order_perm_range (g : Graph) : g.fullTraversal.order.Perm (List.range g.size) := by
  have bounded := bounded_successors g
  have nodes : ∀ r ∈ List.range g.size, r < g.size := fun r => List.mem_range.mp
  rw [fullTraversal,
    List.perm_ext_iff_of_nodup (Digraph.nodup_order_traverse bounded nodes) List.nodup_range]
  intro i
  rw [Digraph.mem_order_traverse bounded nodes]
  constructor
  · rintro ⟨r, hr, walk⟩
    exact List.mem_range.mpr (bounded.lt_of_reflTransGen (nodes r hr) walk)
  · intro hi
    exact ⟨i, hi, .refl⟩

namespace WellFormed

variable {g : Graph}

/-- The traversal sees a cycle exactly when the components list one. -/
theorem cyclic_iff (h : g.WellFormed) : g.fullTraversal.cyclic = true ↔ g.cycles ≠ [] := by
  have bounded := bounded_successors g
  have nodes : ∀ r ∈ List.range g.size, r < g.size := fun r => List.mem_range.mp
  rw [fullTraversal, Digraph.cyclic_traverse_iff bounded nodes]
  constructor
  · rintro ⟨i, -, cycle⟩
    have inside : i < g.paths.length := by
      simpa [paths, size] using bounded.lt_of_transGen cycle
    have path : g.paths[i]? = some g.paths[i] := List.getElem?_eq_getElem inside
    obtain ⟨cycle', hc, -⟩ := h.mem_some_cycle_iff.mpr ((h.transGen_iff path path).mpr cycle)
    exact List.ne_nil_of_mem hc
  · intro some_cycle
    obtain ⟨cycle, hc⟩ := List.exists_mem_of_ne_nil _ some_cycle
    obtain ⟨a, ha⟩ := List.exists_mem_of_ne_nil _ (h.ne_nil_of_mem_cycles hc)
    have walk := h.mem_some_cycle_iff.mp ⟨cycle, hc, ha⟩
    obtain ⟨i, path⟩ := List.getElem?_of_mem (right_mem_of_transGen walk)
    have around := (h.transGen_iff path path).mp walk
    exact ⟨i, ⟨i, List.mem_range.mpr (bounded.lt_of_transGen around), .refl⟩, around⟩

theorem pathsAt_order_perm (g : Graph) :
    (pathsAt g.entries g.fullTraversal.order).Perm g.paths := by
  rw [paths_eq, ← pathsAt_range, pathsAt_eq, pathsAt_eq]
  exact (order_perm_range g).filterMap _

/-- Without a cycle every dependency is listed in front of the node that has it. -/
theorem idxOf_lt_of_depends (h : g.WellFormed) (acyclic : g.fullTraversal.cyclic = false)
    {a b : String} (depends : g.Depends a b) :
    (pathsAt g.entries g.fullTraversal.order).idxOf b <
      (pathsAt g.entries g.fullTraversal.order).idxOf a := by
  have bounded := bounded_successors g
  have nodes : ∀ r ∈ List.range g.size, r < g.size := fun r => List.mem_range.mp
  obtain ⟨i, pathi⟩ := List.getElem?_of_mem (depends.left_mem h.distinct)
  obtain ⟨j, pathj⟩ := List.getElem?_of_mem depends.right_mem
  have hi : i < g.size := by simpa [paths, size] using (List.getElem?_eq_some_iff.mp pathi).1
  have pair : [j, i].Sublist g.fullTraversal.order :=
    Digraph.pair_sublist_order_traverse bounded nodes acyclic ⟨i, List.mem_range.mpr hi, .refl⟩
      ((h.depends_iff_edge pathi pathj).mp depends)
  have pair' : [b, a].Sublist (pathsAt g.entries g.fullTraversal.order) := by
    have mapped := pair.filterMap fun k => g.paths[k]?
    rw [pathsAt_eq, ← paths_eq]
    simpa [pathi, pathj] using mapped
  have once : (pathsAt g.entries g.fullTraversal.order).Nodup :=
    (pathsAt_order_perm g).nodup_iff.mpr h.distinct
  have ascending := (FirstSeen.pairwise_idxOf once).sublist pair'
  simpa using ascending

end WellFormed

/-- The order of a graph lists its nodes, or the failure names its cycles. -/
theorem leavesFirst_perm (g : Graph) :
    match g.leavesFirst with
    | .ok order => order.Perm g.paths
    | .error failure => failure = .cyclesBlockOrder g.cycles := by
  rw [leavesFirst, topologicalOrder_eq]
  cases g.fullTraversal.cyclic with
  | true => rfl
  | false => exact WellFormed.pathsAt_order_perm g

/-- The order of a graph that was built succeeds exactly when its entries have no cyclic component.
Then it lists every node once and each after all nodes that it depends on; otherwise the failure
names the cycles of the graph, of which there are some. -/
theorem leavesFirst_build (operations : List Draft.Operation) :
    let g := (Draft.ofOperations operations).build
    ((∃ order, g.leavesFirst = .ok order) ↔ cyclesOf g.entries = []) ∧
      match g.leavesFirst with
      | .ok order => order.Perm g.paths ∧ ∀ a b, g.Depends a b → order.idxOf b < order.idxOf a
      | .error failure => failure = .cyclesBlockOrder g.cycles ∧ g.cycles ≠ [] := by
  intro g
  have h : g.WellFormed := Draft.wellFormed_build operations
  have outcome := topologicalOrder_eq g
  rw [← h.cycles_eq]
  cases seen : g.fullTraversal.cyclic with
  | false =>
      have order : g.leavesFirst = .ok (pathsAt g.entries g.fullTraversal.order) := by
        rw [leavesFirst, outcome, seen]
        rfl
      have none_left : g.cycles = [] := by
        by_contra some_left
        rw [h.cyclic_iff.mpr some_left] at seen
        cases seen
      rw [order]
      exact ⟨by simp [none_left], WellFormed.pathsAt_order_perm g,
        fun a b => h.idxOf_lt_of_depends seen⟩
  | true =>
      have blocked : g.leavesFirst = .error (.cyclesBlockOrder g.cycles) := by
        rw [leavesFirst, outcome, seen]
        rfl
      have some_left := h.cyclic_iff.mp seen
      rw [blocked]
      exact ⟨by simp [some_left], rfl, some_left⟩

end CommitSplit.Graph
