import CommitSplit.Proofs.Analysis.CommitOrder
import CommitSplit.Proofs.Digraph.Roots
import CommitSplit.Proofs.Graph.MemberOrder
import CommitSplit.Proofs.Group.Matching

/-!
# Marks and orders of groups

A group is marked when a file of it lies on a cycle of the whole graph, and its order is made from
the dependencies among its files alone. The two disagree when a cycle runs through files that did
not change: the group is marked, and its files are sorted all the same. They stay in the order of
the changes exactly when they have a cycle among themselves or are sorted in that order.
-/

namespace CommitSplit

namespace Graph

variable {g : Graph} {members : List String}

/-- A list that is an order of itself has the members without a node in front. -/
theorem IsOrderOf.filter_append_filter (listed : g.IsOrderOf members members) :
    (members.filter fun member => !g.contains member) ++ members.filter g.contains = members := by
  obtain ⟨nodes, split, -, known⟩ := listed.split
  have among : members.filter g.contains = nodes := by
    conv_lhs => rw [split]
    rw [List.filter_append, List.filter_filter, List.filter_eq_self.mpr fun a there =>
      (contains_iff g a).mpr ((known a).mp there).2]
    simp
  rw [among]
  exact split.symm

namespace WellFormed

/-- A cycle among members is a cycle of the graph. -/
theorem transGen_of_dependsAmong (h : g.WellFormed) {a : String}
    (cycle : Relation.TransGen (g.DependsAmong members) a a) :
    Relation.TransGen g.Depends a a :=
  Relation.TransGen.mono (fun _ c step => ⟨step.1.2, (contains_iff g c).mpr step.2⟩) _ _
    (h.transGen_among_nodes cycle)

/-- Members that are in order already are left as they are. -/
theorem orderWithin_eq_self (h : g.WellFormed) (nodup : members.Nodup)
    (acyclic : (g.memberTraversal members).cyclic = false)
    (listed : g.IsOrderOf members members) : g.orderWithin members = some members := by
  have forward : (g.placesOf members).Pairwise fun i j =>
      ¬Digraph.Edge (g.innerSuccessors members) i j := by
    refine List.pairwise_filterMap.mpr (listed.forward.imp_of_mem ?_)
    intro a b ha _ apart i hi j hj edge
    exact apart ((h.innerEdge_iff_dependsAmong (getElem?_of_position? hi)
      (getElem?_of_position? hj) ha).mp edge)
  have order : (g.memberTraversal members).order = g.placesOf members :=
    Digraph.order_traverse_of_forward (bounded_innerSuccessors g members) (fun _ => placesOf_lt)
      (nodup_placesOf g nodup) (fun _ _ _ edge => (innerEdge_iff.mp edge).2) forward
  refine orderWithin_eq_some_iff.mpr ⟨acyclic, ?_⟩
  rw [order, pathsAt_placesOf]
  exact listed.filter_append_filter

end WellFormed

end Graph

namespace Group

/-- What the mark and the order of a group say. -/
structure KeepsOrder (g : Graph) (group : Group) : Prop where
  /-- A group is marked when a file of it lies on a cycle, wherever that runs. -/
  marked_iff : group.containsCycle = true ↔ ∃ u ∈ group.files, Relation.TransGen g.Depends u u
  order_perm : group.order.Perm group.files
  /-- Without a mark every file comes behind the files of the group that it depends on. -/
  behind : group.containsCycle = false → ∀ u v, g.DependsAmong group.files u v →
    group.order.idxOf v < group.order.idxOf u
  marked_of_cyclic : group.IsCyclic g → group.containsCycle = true
  /-- A cycle among the files leaves them in the order of the changes. -/
  order_of_cyclic : group.IsCyclic g → group.order = group.files
  /-- Without one they are sorted, with a mark or without. -/
  order_of_acyclic : ¬group.IsCyclic g → g.IsOrderOf group.files group.order
  /-- So a marked group keeps the order of the changes when its files are on a cycle among
  themselves, or sorted already. -/
  order_eq_files_iff : group.order = group.files ↔
    group.IsCyclic g ∨ g.IsOrderOf group.files group.files

variable {g : Graph} {paths : List String} {group : Group}

theorem marked_iff_of_mem_form (built : g.WellFormed) (h : group ∈ form (some g) paths) :
    group.containsCycle = true ↔ ∃ u ∈ group.files, Relation.TransGen g.Depends u u := by
  rw [containsCycle_of_mem_form h, List.any_eq_true]
  exact exists_congr fun u => and_congr_right fun _ => built.isInCycle_iff

/-- A cycle among the files of a group is one of the graph. -/
theorem marked_of_cyclic_of_mem_form (built : g.WellFormed) (h : group ∈ form (some g) paths)
    (cyclic : group.IsCyclic g) : group.containsCycle = true := by
  obtain ⟨u, cycle⟩ := cyclic
  obtain ⟨_, first, -⟩ := Relation.TransGen.head'_iff.mp cycle
  exact (marked_iff_of_mem_form built h).mpr
    ⟨u, first.1.1, built.transGen_of_dependsAmong cycle⟩

/-- Without a cycle among the files their order is the one of the changes when that is sorted. -/
theorem order_eq_files_iff_of_mem_form (built : g.WellFormed) (nodup : paths.Nodup)
    (h : group ∈ form (some g) paths) (acyclic : ¬group.IsCyclic g) :
    group.order = group.files ↔ g.IsOrderOf group.files group.files := by
  have sorted := orderWithin_of_mem_form built h acyclic
  constructor
  · intro same
    exact built.isOrderOf_orderWithin (same ▸ sorted)
  · intro listed
    have unchanged := built.orderWithin_eq_self (nodup_files_of_mem_form nodup h)
      (Graph.orderWithin_eq_some_iff.mp sorted).1 listed
    exact Option.some_inj.mp (sorted.symm.trans unchanged)

/-- The groups that are formed from distinct files with a graph keep their order. -/
theorem keepsOrder_of_mem_form (built : g.WellFormed) (nodup : paths.Nodup)
    (h : group ∈ form (some g) paths) : group.KeepsOrder g where
  marked_iff := marked_iff_of_mem_form built h
  order_perm := order_perm_of_mem_form nodup h
  behind unmarked u v depends := by
    have acyclic : ¬group.IsCyclic g := fun cyclic => by
      simp [marked_of_cyclic_of_mem_form built h cyclic] at unmarked
    exact idxOf_lt_of_mem_form built nodup h acyclic depends
  marked_of_cyclic := marked_of_cyclic_of_mem_form built h
  order_of_cyclic := order_of_cyclic_of_mem_form built h
  order_of_acyclic acyclic :=
    built.isOrderOf_orderWithin (orderWithin_of_mem_form built h acyclic)
  order_eq_files_iff := by
    by_cases cyclic : group.IsCyclic g
    · exact iff_of_true (order_of_cyclic_of_mem_form built h cyclic) (.inl cyclic)
    · rw [or_iff_right cyclic]
      exact order_eq_files_iff_of_mem_form built nodup h cyclic

end Group

namespace Engine

/-- In the groups of changes by a graph that was built, files come behind what they depend on if
the group has no mark. A marked group keeps the order of the changes exactly when its files have a
cycle among themselves or are sorted in that order. -/
theorem keepsOrder_of_groupChanges (changes : List Change)
    (operations : List Graph.Draft.Operation) (options : Options) (groups : List Group)
    (grouped : groupChanges changes (Graph.Draft.ofOperations operations).build options =
      .ok groups) :
    ∀ group ∈ groups, group.KeepsOrder (Graph.Draft.ofOperations operations).build := by
  obtain ⟨exclusion, -, grouped⟩ := Attempt.bind_eq_ok_iff.mp grouped
  obtain ⟨_, -, ⟨⟩⟩ := Attempt.bind_eq_ok_iff.mp grouped
  exact fun group h => Group.keepsOrder_of_mem_form (Graph.Draft.wellFormed_build operations)
    (ChangeSet.nodup_paths_collect exclusion changes) h

/-- Two files that import each other stay as they were named, and a third one is sorted. -/
theorem keepsOrder_of_pair_and_chain :
    let operations : List Graph.Draft.Operation :=
      [.addDependency "a" "b", .addDependency "b" "a", .addDependency "c" "d"]
    let changes := [.modified "b", .modified "c", .modified "a", .modified "d"]
    let g := (Graph.Draft.ofOperations operations).build
    let groups : List Group :=
      [{ id := "group-1", files := ["b", "a"], risk := .high
         rationale := "2 files connected by 2 dependency edges; contains a circular dependency"
         containsCycle := true, order := ["b", "a"] },
        { id := "group-2", files := ["c", "d"], risk := .low
          rationale := "2 files connected by 1 dependency edges"
          containsCycle := false, order := ["d", "c"] }]
    groupChanges changes g .default = .ok groups ∧ ∀ group ∈ groups, group.KeepsOrder g := by
  intro operations changes g groups
  have grouped : groupChanges changes g .default = .ok groups := by decide +kernel
  exact ⟨grouped, keepsOrder_of_groupChanges changes operations .default groups grouped⟩

/-- A cycle through a file that did not change marks the group of two of its files, and they are
sorted all the same. -/
theorem marked_group_sorted :
    let g := (Graph.Draft.ofOperations [.addDependency "a" "b", .addDependency "b" "c",
      .addDependency "c" "a"]).build
    let group : Group :=
      { id := "group-1", files := ["a", "b"], risk := .high
        rationale := "2 files connected by 1 dependency edges; contains a circular dependency"
        containsCycle := true, order := ["b", "a"] }
    groupChanges [.modified "a", .modified "b"] g .default = .ok [group] ∧
      group.containsCycle = true ∧ group.order ≠ group.files := by
  decide +kernel

end Engine

end CommitSplit
