import CommitSplit.Graph.Order
import CommitSplit.Proofs.Digraph.Traversal
import CommitSplit.Proofs.Graph.Cycles

/-!
# Orders of some members

The order of some members is made by a traversal that never leaves them, so it fails exactly when
the dependencies among the members contain a cycle, whatever the rest of the graph looks like. A
member need not be a node. Then it depends on nothing, and so it lies on no cycle and may come
first.
-/

namespace CommitSplit.Graph

/-- One member directly depends on another. -/
def DependsAmong (g : Graph) (members : List String) (a b : String) : Prop :=
  (a ∈ members ∧ b ∈ members) ∧ b ∈ g.dependencies a

/-! ## The places of members -/

variable {g : Graph} {members order : List String} {a b : String} {i j : Nat}

/-- The places of those members that are nodes. -/
def placesOf (g : Graph) (members : List String) : List Nat :=
  members.filterMap (position? g.entries)

/-- The digraph that the order of members is made on. -/
abbrev innerSuccessors (g : Graph) (members : List String) : Nat → List Nat :=
  successorsIn (innerAdjacency g.entries (g.placesOf members))

/-- The traversal of members. -/
def memberTraversal (g : Graph) (members : List String) : Digraph.Traversal :=
  Digraph.traverse g.size (g.innerSuccessors members) (g.placesOf members)

theorem orderWithin_eq (g : Graph) (members : List String) :
    g.orderWithin members =
      if (g.memberTraversal members).cyclic then none
      else some ((members.filter fun member => !g.contains member) ++
        pathsAt g.entries (g.memberTraversal members).order) := rfl

/-- The order of members, those without a node first, unless the traversal saw a cycle. -/
theorem orderWithin_eq_some_iff :
    g.orderWithin members = some order ↔
      (g.memberTraversal members).cyclic = false ∧
        (members.filter fun member => !g.contains member) ++
          pathsAt g.entries (g.memberTraversal members).order = order := by
  rw [orderWithin_eq]
  cases (g.memberTraversal members).cyclic <;> simp

theorem not_contains_iff : (!g.contains a) = true ↔ a ∉ g.paths := by
  rw [Bool.not_eq_true', ← Bool.not_eq_true, contains_iff]

theorem placesOf_lt (hi : i ∈ g.placesOf members) : i < g.size := by
  obtain ⟨member, -, found⟩ := List.mem_filterMap.mp hi
  simpa [pathsOf, size] using (List.getElem?_eq_some_iff.mp (getElem?_of_position? found)).1

/-- Members at one place are the same. -/
theorem nodup_placesOf (g : Graph) (nodup : members.Nodup) : (g.placesOf members).Nodup := by
  apply nodup.filterMap
  intro a b i ha hb
  exact Option.some_inj.mp ((getElem?_of_position? ha).symm.trans (getElem?_of_position? hb))

theorem pathsAt_placesOf (g : Graph) (members : List String) :
    pathsAt g.entries (g.placesOf members) = members.filter g.contains := by
  rw [pathsAt_eq, placesOf, List.filterMap_filterMap, ← List.filterMap_eq_filter]
  apply List.filterMap_congr
  intro member _
  cases found : position? g.entries member with
  | none => simp [Option.guard, contains, found]
  | some i => simp [Option.guard, contains, found, getElem?_of_position? found]

theorem innerEdge_iff :
    Digraph.Edge (g.innerSuccessors members) i j ↔
      Digraph.Edge g.successors i j ∧ j ∈ g.placesOf members := by
  rw [Digraph.Edge, Digraph.Edge, innerSuccessors, successors, successorsIn, successorsIn,
    innerAdjacency, Array.getD_eq_getD_getElem?, Array.getD_eq_getD_getElem?,
    Array.getElem?_map]
  cases (adjacency g.entries)[i]? with
  | none => simp
  | some successors => simp

theorem bounded_innerSuccessors (g : Graph) (members : List String) :
    Digraph.Bounded g.size (g.innerSuccessors members) :=
  fun _ _ edge => bounded_successors g (innerEdge_iff.mp edge).1

/-- Edges between members never lead away from them. -/
theorem reached_placesOf_iff :
    Digraph.Reached (g.innerSuccessors members) (g.placesOf members) i ↔
      i ∈ g.placesOf members :=
  Digraph.reached_iff_of_closed fun _ _ _ edge => (innerEdge_iff.mp edge).2

theorem nodup_order_memberTraversal (g : Graph) (members : List String) :
    (g.memberTraversal members).order.Nodup :=
  Digraph.nodup_order_traverse (bounded_innerSuccessors g members) fun _ => placesOf_lt

theorem mem_order_memberTraversal :
    i ∈ (g.memberTraversal members).order ↔ i ∈ g.placesOf members := by
  rw [memberTraversal, Digraph.mem_order_traverse (bounded_innerSuccessors g members)
    fun _ => placesOf_lt, reached_placesOf_iff]

theorem order_memberTraversal_perm (g : Graph) (nodup : members.Nodup) :
    (g.memberTraversal members).order.Perm (g.placesOf members) :=
  (List.perm_ext_iff_of_nodup (nodup_order_memberTraversal g members)
    (nodup_placesOf g nodup)).mpr fun _ => mem_order_memberTraversal

namespace WellFormed

theorem mem_placesOf_iff (h : g.WellFormed) (hi : g.paths[i]? = some a) :
    i ∈ g.placesOf members ↔ a ∈ members := by
  rw [placesOf, List.mem_filterMap]
  constructor
  · rintro ⟨member, there, found⟩
    obtain rfl : member = a :=
      Option.some_inj.mp ((getElem?_of_position? found).symm.trans hi)
    exact there
  · exact fun there => ⟨a, there, (position?_eq_some_iff h.distinct).mpr hi⟩

theorem mem_paths_of_dependency (h : g.WellFormed) (depends : b ∈ g.dependencies a) :
    a ∈ g.paths := by
  obtain ⟨entry, there, rfl, -⟩ := (mem_dependencies_iff h.distinct).mp depends
  exact List.mem_map_of_mem there

/-- Edges between the places of members are dependencies of one member on another. -/
theorem innerEdge_iff_dependsAmong (h : g.WellFormed) (hi : g.paths[i]? = some a)
    (hj : g.paths[j]? = some b) (ha : a ∈ members) :
    Digraph.Edge (g.innerSuccessors members) i j ↔ g.DependsAmong members a b := by
  have node : g.contains b = true := (contains_iff g b).mpr (List.mem_of_getElem? hj)
  rw [innerEdge_iff, ← h.depends_iff_edge hi hj, h.mem_placesOf_iff hj, Depends, DependsAmong]
  simp [node, ha, and_comm]

/-! ## The order of members -/

/-- A walk that starts at a member passes members only. -/
theorem transGen_dependsAmong (h : g.WellFormed) (hi : g.paths[i]? = some a) (ha : a ∈ members)
    (hj : g.paths[j]? = some b)
    (walk : Relation.TransGen (Digraph.Edge (g.innerSuccessors members)) i j) :
    Relation.TransGen (g.DependsAmong members) a b := by
  induction walk generalizing b with
  | single first => exact .single ((h.innerEdge_iff_dependsAmong hi hj ha).mp first)
  | @tail k _ front last ih =>
      have inside : k < g.paths.length := by
        simpa [paths, size] using (bounded_innerSuccessors g members).lt_of_transGen front
      have hk : g.paths[k]? = some g.paths[k] := List.getElem?_eq_getElem inside
      obtain ⟨_, -, before⟩ := Relation.TransGen.tail'_iff.mp front
      have member := (h.mem_placesOf_iff hk).mp (innerEdge_iff.mp before).2
      exact (ih hk).tail ((h.innerEdge_iff_dependsAmong hk hj member).mp last)

/-- A member that depends on something is a node, so a cycle among members stays among nodes. -/
theorem transGen_among_nodes (h : g.WellFormed)
    (cycle : Relation.TransGen (g.DependsAmong members) a a) :
    Relation.TransGen (fun b c => g.DependsAmong members b c ∧ c ∈ g.paths) a a :=
  Digraph.transGen_of_followed
    (fun _ _ _ first next => ⟨first, h.mem_paths_of_dependency next.2⟩) cycle

/-- The traversal of members sees a cycle exactly when there is one among them. -/
theorem cyclic_memberTraversal_iff (h : g.WellFormed) :
    (g.memberTraversal members).cyclic = true ↔
      ∃ a, Relation.TransGen (g.DependsAmong members) a a := by
  rw [memberTraversal, Digraph.cyclic_traverse_iff (bounded_innerSuccessors g members)
    fun _ => placesOf_lt]
  constructor
  · rintro ⟨i, reached, cycle⟩
    rw [reached_placesOf_iff] at reached
    obtain ⟨a, ha, found⟩ := List.mem_filterMap.mp reached
    have hi := getElem?_of_position? found
    exact ⟨a, h.transGen_dependsAmong hi ha hi cycle⟩
  · rintro ⟨a, cycle⟩
    have place {a : String} (ha : a ∈ g.paths) : g.paths[g.paths.idxOf a]? = some a :=
      List.getElem?_idxOf ha
    have walk : Relation.TransGen (Digraph.Edge (g.innerSuccessors members))
        (g.paths.idxOf a) (g.paths.idxOf a) := by
      refine Relation.TransGen.lift g.paths.idxOf ?_ a a (h.transGen_among_nodes cycle)
      rintro b c ⟨depends, node⟩
      exact (h.innerEdge_iff_dependsAmong (place (h.mem_paths_of_dependency depends.2))
        (place node) depends.1.1).mpr depends
    obtain ⟨_, _, last⟩ := Relation.TransGen.tail'_iff.mp walk
    exact ⟨_, reached_placesOf_iff.mpr (innerEdge_iff.mp last).2, walk⟩

theorem orderWithin_eq_none_iff (h : g.WellFormed) :
    g.orderWithin members = none ↔ ∃ a, Relation.TransGen (g.DependsAmong members) a a := by
  rw [← h.cyclic_memberTraversal_iff, Option.eq_none_iff_forall_ne_some]
  simp [orderWithin_eq_some_iff]

/-- A node among the members that another one depends on comes in front of that one. -/
theorem pair_sublist_pathsAt (h : g.WellFormed)
    (acyclic : (g.memberTraversal members).cyclic = false) (depends : g.DependsAmong members a b)
    (node : b ∈ g.paths) :
    [b, a].Sublist (pathsAt g.entries (g.memberTraversal members).order) := by
  obtain ⟨i, hi⟩ := List.getElem?_of_mem (h.mem_paths_of_dependency depends.2)
  obtain ⟨j, hj⟩ := List.getElem?_of_mem node
  have reached := reached_placesOf_iff.mpr ((h.mem_placesOf_iff hi).mpr depends.1.1)
  have edge := (h.innerEdge_iff_dependsAmong hi hj depends.1.1).mpr depends
  have pair : [j, i].Sublist (g.memberTraversal members).order :=
    Digraph.pair_sublist_order_traverse (bounded_innerSuccessors g members)
      (fun _ => placesOf_lt) acyclic reached edge
  have mapped := pair.filterMap fun k => g.paths[k]?
  rw [pathsAt_eq, ← paths_eq]
  simpa [hi, hj] using mapped

/-- The nodes in the order of members are those that have a node. -/
theorem mem_pathsAt_order_iff (h : g.WellFormed) :
    a ∈ pathsAt g.entries (g.memberTraversal members).order ↔ a ∈ members ∧ a ∈ g.paths := by
  simp only [mem_pathsAt, mem_order_memberTraversal, ← paths_eq]
  constructor
  · rintro ⟨i, there, hi⟩
    exact ⟨(h.mem_placesOf_iff hi).mp there, List.mem_of_getElem? hi⟩
  · rintro ⟨there, node⟩
    obtain ⟨i, hi⟩ := List.getElem?_of_mem node
    exact ⟨i, (h.mem_placesOf_iff hi).mpr there, hi⟩

/-- What a member depends on comes in front of it. -/
theorem pair_sublist_orderWithin (h : g.WellFormed)
    (ordered : g.orderWithin members = some order) (depends : g.DependsAmong members a b) :
    [b, a].Sublist order := by
  obtain ⟨acyclic, rfl⟩ := orderWithin_eq_some_iff.mp ordered
  by_cases node : b ∈ g.paths
  · exact (h.pair_sublist_pathsAt acyclic depends node).trans (List.sublist_append_right _ _)
  · -- A member without a node is in the front part, and one with dependencies is not.
    have front : b ∈ members.filter fun member => !g.contains member :=
      List.mem_filter.mpr ⟨depends.1.2, not_contains_iff.mpr node⟩
    have back : a ∈ pathsAt g.entries (g.memberTraversal members).order :=
      h.mem_pathsAt_order_iff.mpr ⟨depends.1.1, h.mem_paths_of_dependency depends.2⟩
    exact (List.singleton_sublist.mpr front).append (List.singleton_sublist.mpr back)

end WellFormed

/-- The order of members lists each of them once. -/
theorem perm_of_orderWithin (nodup : members.Nodup)
    (ordered : g.orderWithin members = some order) : order.Perm members := by
  obtain ⟨-, rfl⟩ := orderWithin_eq_some_iff.mp ordered
  have nodes : (pathsAt g.entries (g.memberTraversal members).order).Perm
      (members.filter g.contains) := by
    rw [← pathsAt_placesOf, pathsAt_eq, pathsAt_eq]
    exact (order_memberTraversal_perm g nodup).filterMap _
  refine (nodes.append_left _).trans ?_
  exact List.perm_append_comm.trans (List.filter_append_perm g.contains members)

end CommitSplit.Graph
