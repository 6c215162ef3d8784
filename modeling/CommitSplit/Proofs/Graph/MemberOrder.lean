import CommitSplit.Proofs.Digraph.Renaming
import CommitSplit.Proofs.Graph.Members

/-!
# What the order of members depends on

Members may be listed more than once and need not be nodes. The order has those without a node as
they were listed, then every other one once, behind all that it depends on. Only the edges between
members decide on it: the traversal never looks at another one, so the graph around the members may
be a different one, with its nodes at other places.
-/

namespace CommitSplit.Graph

variable {g g' : Graph} {members order : List String} {a b : String} {i j : Nat}

/-! ## Shape -/

/-- An order of members: those without a node as they are listed, then those with a node, each once,
and none in front of something that it depends on. -/
structure IsOrderOf (g : Graph) (members order : List String) : Prop where
  split : ∃ nodes, order = (members.filter fun member => !g.contains member) ++ nodes ∧
    nodes.Nodup ∧ ∀ a, a ∈ nodes ↔ a ∈ members ∧ a ∈ g.paths
  forward : order.Pairwise fun a b => ¬g.DependsAmong members a b

/-- Members without a node do not count for what depends on what. -/
theorem placesOf_filter_contains (g : Graph) (members : List String) :
    g.placesOf (members.filter g.contains) = g.placesOf members := by
  rw [placesOf, placesOf, List.filterMap_filter]
  refine List.filterMap_congr fun member _ => ?_
  cases found : position? g.entries member with
  | none => exact ite_self none
  | some i => rw [contains, found, Option.isSome_some, if_pos rfl]

theorem memberTraversal_filter_contains (g : Graph) (members : List String) :
    g.memberTraversal (members.filter g.contains) = g.memberTraversal members := by
  simp only [memberTraversal, innerSuccessors, placesOf_filter_contains]

/-- So it takes a cycle among the nodes to leave members without an order. -/
theorem WellFormed.orderWithin_eq_none_iff_of_nodes (h : g.WellFormed) :
    g.orderWithin members = none ↔
      ∃ a, Relation.TransGen (g.DependsAmong (members.filter g.contains)) a a := by
  rw [h.orderWithin_eq_none_iff, ← h.cyclic_memberTraversal_iff, ← h.cyclic_memberTraversal_iff,
    memberTraversal_filter_contains]

/-- The order of members is an order of them. -/
theorem WellFormed.isOrderOf_orderWithin (h : g.WellFormed)
    (ordered : g.orderWithin members = some order) : g.IsOrderOf members order := by
  obtain ⟨acyclic, rfl⟩ := orderWithin_eq_some_iff.mp ordered
  have nodup : (pathsAt g.entries (g.memberTraversal members).order).Nodup :=
    nodup_pathsAt h.distinct (nodup_order_memberTraversal g members)
  have free : ∀ a ∈ members.filter fun member => !g.contains member, ∀ b,
      ¬g.DependsAmong members a b := fun a there b depends =>
    not_contains_iff.mp (List.mem_filter.mp there).2 (h.mem_paths_of_dependency depends.2)
  refine ⟨⟨_, rfl, nodup, fun a => h.mem_pathsAt_order_iff⟩, List.pairwise_append.mpr ⟨?_, ?_, ?_⟩⟩
  · exact List.pairwise_of_forall_mem_list fun a there b _ => free a there b
  · refine List.pairwise_iff_forall_sublist.mpr fun {a b} pair depends => ?_
    have node : b ∈ g.paths :=
      (h.mem_pathsAt_order_iff.mp (pair.subset (List.mem_cons_of_mem _ List.mem_cons_self))).2
    have forth := (FirstSeen.pairwise_idxOf nodup).sublist pair
    have back := (FirstSeen.pairwise_idxOf nodup).sublist
      (h.pair_sublist_pathsAt acyclic depends node)
    simp only [List.pairwise_pair] at forth back
    exact lt_asymm forth back
  · exact fun a there b _ => free a there b

/-! ## The edges between members -/

/-- The direct dependencies of a path that are members with a node. -/
def innerDependencies (g : Graph) (members : List String) (a : String) : List String :=
  (g.dependencies a).filter fun b => b ∈ members ∧ g.contains b = true

/-- Two graphs agree on members: the same ones are nodes, with the same dependencies among them. -/
structure AgreeAmong (members : List String) (g g' : Graph) : Prop where
  contains_eq : ∀ a ∈ members, g.contains a = g'.contains a
  dependencies_eq : ∀ a ∈ members, g.innerDependencies members a = g'.innerDependencies members a

/-- The successors of a member are the places of its dependencies among the members. -/
theorem WellFormed.innerSuccessors_eq (h : g.WellFormed) (hi : g.paths[i]? = some a) :
    g.innerSuccessors members i = g.placesOf (g.innerDependencies members a) := by
  obtain ⟨entry, there, path⟩ : ∃ entry, g.entries[i]? = some entry ∧ entry.node.path = a := by
    simpa [paths] using hi
  have targets : g.dependencies a = entry.targets := by
    rw [dependencies, (entry?_eq_some_iff h.distinct).mpr ⟨List.mem_of_getElem? there, path⟩]
    rfl
  have row : g.innerSuccessors members i =
      (entry.targets.filterMap (position? g.entries)).filter fun j => j ∈ g.placesOf members := by
    simp [innerSuccessors, successorsIn, innerAdjacency, adjacency, there]
  rw [row, List.filter_filterMap, innerDependencies, targets]
  conv_rhs => rw [placesOf, List.filterMap_filter]
  refine List.filterMap_congr fun b _ => ?_
  cases found : position? g.entries b with
  | none => exact (ite_self none).symm
  | some j =>
      have listed : j ∈ g.placesOf members ↔ b ∈ members :=
        h.mem_placesOf_iff (getElem?_of_position? found)
      simp [contains, found, listed, Option.filter]

/-! ## Another graph around the same members -/

/-- Places at which two graphs have the same member. -/
def SamePath (members : List String) (g g' : Graph) (i j : Nat) : Prop :=
  ∃ a ∈ members, g.paths[i]? = some a ∧ g'.paths[j]? = some a

theorem forall₂_placesOf {listed : List String} (known : listed ⊆ members)
    (agree : ∀ a ∈ listed, g.contains a = g'.contains a) :
    List.Forall₂ (SamePath members g g') (g.placesOf listed) (g'.placesOf listed) := by
  induction listed with
  | nil => exact .nil
  | cons a listed ih =>
      obtain ⟨member, known⟩ := List.cons_subset.mp known
      obtain ⟨same, agree⟩ := List.forall_mem_cons.mp agree
      rw [placesOf, placesOf, List.filterMap_cons, List.filterMap_cons]
      rw [contains, contains] at same
      cases found : position? g.entries a with
      | none =>
          rw [found, Option.isSome_none, eq_comm, Option.isSome_eq_false_iff,
            Option.isNone_iff_eq_none] at same
          rw [same]
          exact ih known agree
      | some i =>
          rw [found, Option.isSome_some, eq_comm, Option.isSome_iff_exists] at same
          obtain ⟨j, found'⟩ := same
          rw [found']
          exact .cons ⟨a, member, getElem?_of_position? found, getElem?_of_position? found'⟩
            (ih known agree)

theorem pathsAt_eq_of_forall₂ {places places' : List Nat}
    (same : List.Forall₂ (SamePath members g g') places places') :
    pathsAt g.entries places = pathsAt g'.entries places' := by
  rw [pathsAt_eq, pathsAt_eq, ← paths_eq, ← paths_eq]
  induction same with
  | nil => rfl
  | cons first _ ih =>
      obtain ⟨a, -, hi, hj⟩ := first
      rw [List.filterMap_cons_some hi, List.filterMap_cons_some hj, ih]

namespace AgreeAmong

/-- The digraphs of the members differ in the places of the members only. -/
theorem renames (agree : AgreeAmong members g g') (h : g.WellFormed) (h' : g'.WellFormed) :
    Digraph.Renames (SamePath members g g') g.size g'.size (g.innerSuccessors members)
      (g'.innerSuccessors members) where
  left_lt := by
    rintro i j ⟨a, -, hi, -⟩
    simpa [paths, size] using (List.getElem?_eq_some_iff.mp hi).1
  right_lt := by
    rintro i j ⟨a, -, -, hj⟩
    simpa [paths, size] using (List.getElem?_eq_some_iff.mp hj).1
  eq_iff := by
    rintro i j i' j' ⟨a, -, hi, hj⟩ ⟨b, -, hi', hj'⟩
    constructor
    · rintro rfl
      obtain rfl : a = b := Option.some_inj.mp (hi.symm.trans hi')
      exact h'.place_unique hj hj'
    · rintro rfl
      obtain rfl : a = b := Option.some_inj.mp (hj.symm.trans hj')
      exact h.place_unique hi hi'
  successors := by
    rintro i j ⟨a, member, hi, hj⟩
    rw [h.innerSuccessors_eq hi, h'.innerSuccessors_eq hj, ← agree.dependencies_eq a member]
    have inner : g.innerDependencies members a ⊆ members := fun b there =>
      (decide_eq_true_iff.mp (List.mem_filter.mp there).2).1
    exact forall₂_placesOf inner fun b there => agree.contains_eq b (inner there)

/-- Members are ordered alike in graphs that agree on them. -/
theorem orderWithin_eq (agree : AgreeAmong members g g') (h : g.WellFormed) (h' : g'.WellFormed) :
    g.orderWithin members = g'.orderWithin members := by
  obtain ⟨cyclic, order⟩ := (agree.renames h h').traverse (bounded_innerSuccessors g members)
    (bounded_innerSuccessors g' members)
    (forall₂_placesOf (List.Subset.refl members) agree.contains_eq)
  have front : (members.filter fun member => !g.contains member) =
      members.filter fun member => !g'.contains member :=
    List.filter_congr fun a there => by rw [agree.contains_eq a there]
  rw [Graph.orderWithin_eq, Graph.orderWithin_eq, memberTraversal, memberTraversal, cyclic,
    pathsAt_eq_of_forall₂ order, front]

end AgreeAmong

/-- In a graph that was built, members have no order exactly when the edges between those with a
node make a cycle, an edge from a node to itself included. Otherwise their order lists them with
dependencies in front. It stays the same in every graph that agrees on the members. -/
theorem orderWithin_build (operations : List Draft.Operation) (members : List String) :
    let g := (Draft.ofOperations operations).build
    (g.orderWithin members = none ↔
        ∃ a, Relation.TransGen (g.DependsAmong (members.filter g.contains)) a a) ∧
      (∀ order, g.orderWithin members = some order → g.IsOrderOf members order) ∧
      ∀ operations', let g' := (Draft.ofOperations operations').build
        AgreeAmong members g g' → g.orderWithin members = g'.orderWithin members := by
  intro g
  have h : g.WellFormed := Draft.wellFormed_build operations
  refine ⟨h.orderWithin_eq_none_iff_of_nodes, fun order => h.isOrderOf_orderWithin, ?_⟩
  intro operations' g' agree
  exact agree.orderWithin_eq h (Draft.wellFormed_build operations')

example :
    let g := (Draft.ofOperations [.addDependency "a" "x", .addDependencies "x" ["a", "b"],
      .addDependencies "b" ["lib", "c"], .insert (.new "c")]).build
    g.orderWithin ["lib", "b", "a", "c", "lib", "b"] = some ["lib", "lib", "c", "b", "a"] ∧
      g.orderWithin ["a", "b", "x"] = none := by
  decide +kernel

end CommitSplit.Graph
