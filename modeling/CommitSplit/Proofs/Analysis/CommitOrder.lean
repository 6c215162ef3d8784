import CommitSplit.Analysis.Engine
import CommitSplit.Proofs.Graph.Members
import CommitSplit.Proofs.Group.Formation
import CommitSplit.Proofs.Group.Selection

/-!
# Committing files behind what they depend on

The order of a group lists its files, each behind the files that it depends on, unless the
dependencies inside the group contain a cycle; then it is the order of the changes. A file and the
changed files that it depends on are always in one group, so the groups themselves may be committed
in any order.
-/

namespace CommitSplit

namespace Group

/-- The dependencies among the files of a group contain a cycle. -/
def IsCyclic (g : Graph) (group : Group) : Prop :=
  ∃ a, Relation.TransGen (g.DependsAmong group.files) a a

/-- Groups of changed files that can be committed in their orders. -/
structure CommitsInOrder (g : Graph) (changed : List String) (groups : List Group) : Prop where
  /-- Every changed file is in one group, once. -/
  grouped : (groups.flatMap files).Perm changed
  order_perm : ∀ group ∈ groups, group.order.Perm group.files
  /-- A file shares its group with the changed files that it depends on, and follows them there. -/
  behind : ∀ u ∈ changed, ∀ v ∈ changed, u ≠ v → v ∈ g.dependencies u →
    ∃ group ∈ groups, (u ∈ group.files ∧ v ∈ group.files) ∧
      (¬group.IsCyclic g → group.order.idxOf v < group.order.idxOf u)
  order_of_cyclic : ∀ group ∈ groups, group.IsCyclic g → group.order = group.files
  /-- In whatever order the groups are committed, a file of a group without a cycle is committed
  after the changed files that it depends on. -/
  any_arrangement : ∀ arrangement : List Group, arrangement.Perm groups →
    ∀ group ∈ groups, ¬group.IsCyclic g → ∀ u ∈ group.files, ∀ v ∈ changed,
      v ∈ g.dependencies u →
        (arrangement.flatMap order).idxOf v < (arrangement.flatMap order).idxOf u

variable {g : Graph} {paths : List String} {group : Group} {u v : String}

theorem order_of_mem_form (h : group ∈ form (some g) paths) :
    group.order = (g.orderWithin group.files).getD group.files := by
  obtain ⟨_, -, rfl⟩ := List.mem_map.mp h
  rfl

theorem order_perm_of_mem_form (nodup : paths.Nodup) (h : group ∈ form (some g) paths) :
    group.order.Perm group.files := by
  rw [order_of_mem_form h]
  cases ordered : g.orderWithin group.files with
  | none => exact .refl _
  | some order => exact Graph.perm_of_orderWithin (nodup_files_of_mem_form nodup h) ordered

/-- A cycle among the files of a group leaves them in the order of the changes. -/
theorem order_of_cyclic_of_mem_form (built : g.WellFormed) (h : group ∈ form (some g) paths)
    (cyclic : group.IsCyclic g) : group.order = group.files := by
  rw [order_of_mem_form h, built.orderWithin_eq_none_iff.mpr cyclic, Option.getD_none]

/-- Without one the order is made from the dependencies among them. -/
theorem orderWithin_of_mem_form (built : g.WellFormed) (h : group ∈ form (some g) paths)
    (acyclic : ¬group.IsCyclic g) : g.orderWithin group.files = some group.order := by
  rw [order_of_mem_form h]
  cases ordered : g.orderWithin group.files with
  | none => exact absurd (built.orderWithin_eq_none_iff.mp ordered) acyclic
  | some order => rfl

/-- A group without a cycle has its files behind what they depend on. -/
theorem pair_sublist_of_mem_form (built : g.WellFormed) (h : group ∈ form (some g) paths)
    (acyclic : ¬group.IsCyclic g) (depends : g.DependsAmong group.files u v) :
    [v, u].Sublist group.order :=
  built.pair_sublist_orderWithin (orderWithin_of_mem_form built h acyclic) depends

theorem idxOf_lt_of_mem_form (built : g.WellFormed) (nodup : paths.Nodup)
    (h : group ∈ form (some g) paths) (acyclic : ¬group.IsCyclic g)
    (depends : g.DependsAmong group.files u v) : group.order.idxOf v < group.order.idxOf u := by
  have once : group.order.Nodup :=
    (order_perm_of_mem_form nodup h).nodup_iff.mpr (nodup_files_of_mem_form nodup h)
  simpa using (FirstSeen.pairwise_idxOf once).sublist
    (pair_sublist_of_mem_form built h acyclic depends)

/-- A changed file is in the group of every file that depends on it. -/
theorem mem_files_of_dependency (nodup : paths.Nodup) (h : group ∈ form (some g) paths)
    (hu : u ∈ group.files) (hv : v ∈ paths) (depends : v ∈ g.dependencies u) :
    v ∈ group.files := by
  have perm := flatMap_files_form_perm (some g) paths
  have there : u ∈ paths := mem_of_mem_files h hu
  obtain ⟨other, h', hu', hv'⟩ :=
    (exists_group_iff nodup there hv).mpr (.single ⟨⟨there, hv⟩, .inl depends⟩)
  rwa [eq_of_mem_files (perm.nodup_iff.mpr nodup) h h' hu hu']

/-- The groups that are formed from distinct files with a graph can be committed in their orders. -/
theorem commitsInOrder_form (built : g.WellFormed) (nodup : paths.Nodup) :
    CommitsInOrder g paths (form (some g) paths) where
  grouped := flatMap_files_form_perm (some g) paths
  order_perm _ := order_perm_of_mem_form nodup
  behind u hu v hv _ depends := by
    obtain ⟨group, h, hu⟩ :=
      List.mem_flatMap.mp ((flatMap_files_form_perm (some g) paths).mem_iff.mpr hu)
    have hv := mem_files_of_dependency nodup h hu hv depends
    exact ⟨group, h, ⟨hu, hv⟩, fun acyclic =>
      idxOf_lt_of_mem_form built nodup h acyclic ⟨⟨hu, hv⟩, depends⟩⟩
  order_of_cyclic _ := order_of_cyclic_of_mem_form built
  any_arrangement arrangement perm group h acyclic u hu v hv depends := by
    have hv := mem_files_of_dependency nodup h hu hv depends
    have pair : [v, u].Sublist (arrangement.flatMap order) :=
      (pair_sublist_of_mem_form built h acyclic ⟨⟨hu, hv⟩, depends⟩).trans
        (List.sublist_flatten_of_mem (List.mem_map_of_mem (perm.mem_iff.mpr h)))
    have orders : ((form (some g) paths).flatMap order).Perm
        ((form (some g) paths).flatMap files) :=
      List.Perm.flatMap_left _ fun _ => order_perm_of_mem_form nodup
    have once : (arrangement.flatMap order).Nodup :=
      ((perm.flatMap_right order).trans
        (orders.trans (flatMap_files_form_perm (some g) paths))).nodup_iff.mpr nodup
    simpa using (FirstSeen.pairwise_idxOf once).sublist pair

end Group

namespace Engine

/-- Changes that are grouped by a graph that was built can be committed group by group, each group
in its order. -/
theorem commitsInOrder_of_groupChanges (changes : List Change)
    (operations : List Graph.Draft.Operation) (options : Options) (groups : List Group)
    (grouped : groupChanges changes (Graph.Draft.ofOperations operations).build options =
      .ok groups) :
    ∃ exclusion, Exclusion.ofPatterns options.exclude = .ok exclusion ∧
      Group.CommitsInOrder (Graph.Draft.ofOperations operations).build
        (ChangeSet.collect exclusion changes).paths groups := by
  obtain ⟨exclusion, patterns, grouped⟩ := Attempt.bind_eq_ok_iff.mp grouped
  obtain ⟨_, -, ⟨⟩⟩ := Attempt.bind_eq_ok_iff.mp grouped
  exact ⟨exclusion, patterns, Group.commitsInOrder_form (Graph.Draft.wellFormed_build operations)
    (ChangeSet.nodup_paths_collect exclusion changes)⟩

/-- A cycle that leaves the group does not block its order. -/
theorem commitsInOrder_of_outer_cycle :
    let operations : List Graph.Draft.Operation :=
      [.addDependencies "a" ["b", "lib"], .addDependency "lib" "a", .addDependency "c" "c"]
    let changes := [.modified "a", .modified "b", .modified "c"]
    let g := (Graph.Draft.ofOperations operations).build
    let groups : List Group :=
      [{ id := "group-1", files := ["a", "b"], risk := .high
         rationale := "2 files connected by 1 dependency edges; contains a circular dependency"
         containsCycle := true, order := ["b", "a"] },
        { id := "group-2", files := ["c"], risk := .high
          rationale :=
            "c has no dependency links to other changed files; contains a circular dependency"
          containsCycle := true, order := ["c"] }]
    groupChanges changes g .default = .ok groups ∧
      ∃ exclusion, Exclusion.ofPatterns Options.default.exclude = .ok exclusion ∧
        Group.CommitsInOrder g (ChangeSet.collect exclusion changes).paths groups := by
  intro operations changes g groups
  have grouped : groupChanges changes g .default = .ok groups := by decide +kernel
  exact ⟨grouped, commitsInOrder_of_groupChanges changes operations .default groups grouped⟩

end Engine

end CommitSplit
