import CommitSplit.Analysis.Engine
import CommitSplit.Proofs.Graph.Construction
import CommitSplit.Proofs.Group.Division
import CommitSplit.Proofs.Group.Selection
import CommitSplit.Proofs.Group.Validation

/-!
# Working through groups one by one

When the changes of some groups are done, grouping the others by the same graph gives the groups
that are left. Nothing about a group depends on the files outside of it but its number.
-/

namespace CommitSplit

/-- Changes that are left out by their normal paths leave the selection of the others as it is. -/
theorem ChangeSet.paths_collect_filter (exclusion : Exclusion) (changes : List Change)
    (keep : String → Bool) :
    (collect exclusion (changes.filter fun change => keep (Path.normalize change.path))).paths =
      (collect exclusion changes).paths.filter keep := by
  have spelled : (changes.filter fun change => keep (Path.normalize change.path)).map
      (fun change => Path.normalize change.path) =
        (changes.map fun change => Path.normalize change.path).filter keep :=
    List.filter_map.symm
  rw [paths_collect, paths_collect, inputs, named, spelled, List.filter_comm, FirstSeen.of_filter,
    List.filter_comm, ← named, ← inputs]

namespace Group

variable {g : Graph} {paths : List String} {rest : List Group}

/-- The groups with the numbers of their places. -/
def renumber (groups : List Group) : List Group :=
  groups.zipIdx.map fun (group, i) => { group with id := idAt i }

theorem form_some (g : Graph) (paths : List String) :
    form (some g) paths =
      (partsOf (some g) paths).zipIdx.map fun (files, i) => linked g i files := rfl

/-- The groups of the files of some groups are these groups. -/
theorem form_filter (nodup : paths.Nodup) (some_groups : rest.Sublist (form (some g) paths)) :
    form (some g) (paths.filter (· ∈ rest.flatMap files)) = renumber rest := by
  have parts : partsOf (some g) (paths.filter (· ∈ rest.flatMap files)) = rest.map files := by
    rw [List.flatMap_def]
    exact partsOf_filter nodup (map_files_form (some g) paths ▸ some_groups.map files)
  have same (group) (there : group ∈ rest) (i : Nat) :
      { group with id := idAt i } = linked g i group.files := by
    obtain ⟨_, -, rfl⟩ := List.mem_map.mp (some_groups.mem there)
    rfl
  rw [renumber, form_some, parts, List.zipIdx_map, List.map_map]
  refine List.map_congr_left fun ⟨group, i⟩ there => ?_
  exact (same group (List.fst_mem_of_mem_zipIdx there) i).symm

end Group

namespace Engine

variable {changes : List Change} {g : Graph} {options : Options} {exclusion : Exclusion}

/-- Groups that were formed by a graph pass their validation. -/
theorem groupChanges_eq_ok (patterns : Exclusion.ofPatterns options.exclude = .ok exclusion) :
    groupChanges changes g options =
      .ok (Group.form (some g) (ChangeSet.collect exclusion changes).paths) := by
  have valid := Group.validate_eq_ok_iff.mpr
    (Group.valid_form (some g) (ChangeSet.nodup_paths_collect exclusion changes))
  exact Attempt.bind_eq_ok_iff.mpr
    ⟨exclusion, patterns, Attempt.bind_eq_ok_iff.mpr ⟨(), valid, rfl⟩⟩

/-- Grouping the changes of some groups gives these groups. -/
theorem groupChanges_filter {rest : List Group} (keep : String → Bool)
    (patterns : Exclusion.ofPatterns options.exclude = .ok exclusion)
    (some_groups :
      rest.Sublist (Group.form (some g) (ChangeSet.collect exclusion changes).paths))
    (kept : ∀ path ∈ (ChangeSet.collect exclusion changes).paths,
      keep path = true ↔ path ∈ rest.flatMap Group.files) :
    groupChanges (changes.filter fun change => keep (Path.normalize change.path)) g options =
      .ok (Group.renumber rest) := by
  have paths_eq : (ChangeSet.collect exclusion changes).paths.filter keep =
      (ChangeSet.collect exclusion changes).paths.filter (· ∈ rest.flatMap Group.files) :=
    List.filter_congr fun path there => by rw [Bool.eq_iff_iff, kept path there, decide_eq_true_iff]
  rw [groupChanges_eq_ok patterns, ChangeSet.paths_collect_filter, paths_eq,
    Group.form_filter (ChangeSet.nodup_paths_collect exclusion changes) some_groups]

/-- When the changes of some groups are done, the others form the groups that are left, with new
numbers and nothing else new. The changes of one group form that group. -/
theorem groupChanges_remaining (g : Graph) (changes : List Change) (options : Options)
    (groups : List Group) (grouped : groupChanges changes g options = .ok groups) :
    (∀ done : Group → Bool,
      groupChanges
          (changes.filter fun change =>
            !groups.any fun group => done group && Path.normalize change.path ∈ group.files)
          g options =
        .ok (Group.renumber (groups.filter fun group => !done group))) ∧
    ∀ group ∈ groups,
      groupChanges (changes.filter fun change => Path.normalize change.path ∈ group.files)
          g options =
        .ok [{ group with id := Group.idAt 0 }] := by
  obtain ⟨exclusion, patterns, -⟩ := Attempt.bind_eq_ok_iff.mp grouped
  rw [groupChanges_eq_ok patterns] at grouped
  cases grouped
  have nodup := ChangeSet.nodup_paths_collect exclusion changes
  have perm := Group.flatMap_files_form_perm (some g) (ChangeSet.collect exclusion changes).paths
  constructor
  · intro done
    refine groupChanges_filter
      (fun path => !(Group.form _ _).any fun group => done group && path ∈ group.files)
      patterns List.filter_sublist fun path there => ?_
    obtain ⟨own, hown, hpath⟩ := List.mem_flatMap.mp (perm.mem_iff.mpr there)
    have only {group : Group} (hgroup : group ∈ Group.form _ _) (hpath' : path ∈ group.files) :
        own = group :=
      Group.eq_of_mem_files (perm.nodup_iff.mpr nodup) hown hgroup hpath hpath'
    rw [Bool.not_eq_true', List.any_eq_false, List.mem_flatMap]
    constructor
    · intro left
      refine ⟨own, List.mem_filter.mpr ⟨hown, ?_⟩, hpath⟩
      simpa [hpath] using left own hown
    · rintro ⟨group, hgroup, hpath'⟩ other hother both
      obtain ⟨hgroup, left⟩ := List.mem_filter.mp hgroup
      obtain ⟨finished, hpath₂⟩ := Bool.and_eq_true_iff.mp both
      obtain rfl := only hgroup hpath'
      obtain rfl := only hother (of_decide_eq_true hpath₂)
      rw [finished] at left
      cases left
  · intro group hgroup
    have numbered : Group.renumber [group] = [{ group with id := Group.idAt 0 }] := rfl
    rw [← numbered]
    exact groupChanges_filter (fun path => path ∈ group.files) patterns
      (List.singleton_sublist.mpr hgroup) fun path _ => by simp

/-- The second of three groups is done. -/
theorem groupChanges_remaining_of_cycle :
    let operations : List Graph.Draft.Operation :=
      [.addDependency "a" "c", .addDependencies "d" ["e", "lib"], .addDependency "e" "d"]
    let changes : List Change := ["b", "a", "d", "c", "e"].map .modified
    let g := (Graph.Draft.ofOperations operations).build
    let alone : Group :=
      { id := "group-1", files := ["b"], risk := .low
        rationale := "b has no dependency links to other changed files"
        containsCycle := false, order := ["b"] }
    let chain : Group :=
      { id := "group-2", files := ["a", "c"], risk := .low
        rationale := "2 files connected by 1 dependency edges"
        containsCycle := false, order := ["c", "a"] }
    let cycle : Group :=
      { id := "group-3", files := ["d", "e"], risk := .high
        rationale := "2 files connected by 2 dependency edges; contains a circular dependency"
        containsCycle := true, order := ["d", "e"] }
    groupChanges changes g .default = .ok [alone, chain, cycle] ∧
      groupChanges (["b", "d", "e"].map .modified) g .default =
        .ok [alone, { cycle with id := "group-2" }] ∧
      groupChanges (["d", "e"].map .modified) g .default =
        .ok [{ cycle with id := "group-1" }] := by
  intro operations changes g alone chain cycle
  have grouped : groupChanges changes g .default = .ok [alone, chain, cycle] := by decide +kernel
  have remaining := groupChanges_remaining g changes .default _ grouped
  refine ⟨grouped, ?_, ?_⟩
  · have left := remaining.1 fun group => group = chain
    have kept : (changes.filter fun change => !(List.any [alone, chain, cycle] fun group =>
        decide (group = chain) && decide (Path.normalize change.path ∈ group.files))) =
          ["b", "d", "e"].map .modified := by decide +kernel
    rwa [kept] at left
  · have own := remaining.2 cycle (by decide +kernel)
    have kept : (changes.filter fun change => decide (Path.normalize change.path ∈ cycle.files)) =
        ["d", "e"].map .modified := by decide +kernel
    rwa [kept] at own

end Engine

end CommitSplit
