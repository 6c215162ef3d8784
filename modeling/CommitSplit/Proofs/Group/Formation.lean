import CommitSplit.Group.Formation
import CommitSplit.Proofs.Digraph.Linking
import Mathlib.Data.List.Lattice
import Mathlib.Data.List.Nodup
import Mathlib.Data.List.Pairwise

/-!
# How groups divide the changed files

The groups are the parts of a division of the changed files: nothing is lost or repeated, and files
and groups stay in the order of the changes. With a graph the parts are the components of the
dependencies between changed files.
-/

namespace CommitSplit

/-- Parts that hold the items of a list, each part in the order of the list and the parts in the
order of their first items. -/
structure Divides {α : Type} (parts : List (List α)) (items : List α) : Prop where
  ne_nil : ∀ part ∈ parts, part ≠ []
  perm : parts.flatten.Perm items
  sublist : ∀ part ∈ parts, part.Sublist items
  heads : (parts.filterMap List.head?).Sublist items

theorem divides_blocks {α : Type} (items : List α) (links : List (Nat × Nat)) :
    Divides (Digraph.blocks items links) items where
  ne_nil _ := Digraph.ne_nil_of_mem_blocks
  perm := Digraph.perm_flatten_blocks items links
  sublist _ := Digraph.sublist_of_mem_blocks
  heads := Digraph.heads_blocks_sublist items links

theorem divides_singletons {α : Type} (items : List α) :
    Divides (items.map fun item => [item]) items where
  ne_nil := by simp
  perm := by simp [← List.flatMap_def]
  sublist := by simp
  heads := by simp [List.filterMap_map, Function.comp_def]

namespace Group

variable {g : Graph} {graph : Option Graph} {paths : List String} {a b : String} {i j : Nat}

/-- The parts of the changed files that share a group. -/
def partsOf (graph : Option Graph) (paths : List String) : List (List String) :=
  match graph with
  | none => paths.map fun path => [path]
  | some g => Digraph.blocks paths (linksBetween g paths)

theorem divides_partsOf (graph : Option Graph) (paths : List String) :
    Divides (partsOf graph paths) paths := by
  cases graph with
  | none => exact divides_singletons paths
  | some g => exact divides_blocks paths (linksBetween g paths)

theorem map_files_form (graph : Option Graph) (paths : List String) :
    (form graph paths).map files = partsOf graph paths := by
  cases graph with
  | none =>
      rw [form, List.map_map, partsOf]
      conv_rhs => rw [← List.zipIdx_map_fst 0 paths, List.map_map]
      rfl
  | some g =>
      rw [form, List.map_map, partsOf]
      conv_rhs => rw [← List.zipIdx_map_fst 0 (Digraph.blocks paths (linksBetween g paths))]
      rfl

theorem flatMap_files_form_perm (graph : Option Graph) (paths : List String) :
    ((form graph paths).flatMap files).Perm paths := by
  rw [List.flatMap_def, map_files_form]
  exact (divides_partsOf graph paths).perm

theorem files_mem_partsOf {group : Group} (h : group ∈ form graph paths) :
    group.files ∈ partsOf graph paths :=
  map_files_form graph paths ▸ List.mem_map_of_mem h

theorem nodup_files_of_mem_form {group : Group} (nodup : paths.Nodup)
    (h : group ∈ form graph paths) : group.files.Nodup :=
  nodup.sublist ((divides_partsOf graph paths).sublist _ (files_mem_partsOf h))

theorem mem_of_mem_files {group : Group} (h : group ∈ form graph paths) {path : String}
    (there : path ∈ group.files) : path ∈ paths :=
  ((divides_partsOf graph paths).sublist _ (files_mem_partsOf h)).mem there

/-- Groups share no file. -/
theorem eq_of_mem_files {groups : List Group} (nodup : (groups.flatMap files).Nodup)
    {group other : Group} (h : group ∈ groups) (h' : other ∈ groups) (ha : a ∈ group.files)
    (ha' : a ∈ other.files) : group = other := by
  have : Std.Symm (Function.onFun List.Disjoint files) := ⟨fun _ _ => List.Disjoint.symm⟩
  by_contra different
  exact (List.nodup_flatMap.mp nodup).2.forall h h' different ha ha'

theorem files_ne_nil_of_mem_form {group : Group} (h : group ∈ form graph paths) :
    group.files ≠ [] :=
  (divides_partsOf graph paths).ne_nil _ (files_mem_partsOf h)

theorem risk_of_mem_form {group : Group} (h : group ∈ form graph paths) :
    group.risk = aggregateRisk graph group.files := by
  cases graph <;> obtain ⟨_, -, rfl⟩ := List.mem_map.mp h <;> rfl

/-- A group has the number of its place. -/
theorem id_of_getElem?_form {group : Group} (h : (form graph paths)[i]? = some group) :
    group.id = idAt i := by
  cases graph with
  | none =>
      obtain ⟨⟨path, k⟩, there, rfl⟩ : ∃ item, paths.zipIdx[i]? = some item ∧ _ = group := by
        simpa only [form, List.getElem?_map, Option.map_eq_some_iff] using h
      obtain rfl : k = i := by simp_all [List.getElem?_zipIdx]
      rfl
  | some g =>
      obtain ⟨⟨files, k⟩, there, rfl⟩ : ∃ item,
          (Digraph.blocks paths (linksBetween g paths)).zipIdx[i]? = some item ∧ _ = group := by
        simpa only [form, List.getElem?_map, Option.map_eq_some_iff] using h
      obtain rfl : k = i := by simp_all [List.getElem?_zipIdx]
      rfl

/-! ## Dependencies between changed files -/

/-- Two changed files of which one depends on the other. -/
def LinkedIn (g : Graph) (paths : List String) (a b : String) : Prop :=
  (a ∈ paths ∧ b ∈ paths) ∧ (b ∈ g.dependencies a ∨ a ∈ g.dependencies b)

/-- The links of changed files are their dependencies on each other. -/
theorem mem_linksBetween_iff (nodup : paths.Nodup) (hi : paths[i]? = some a)
    (hj : paths[j]? = some b) :
    (i, j) ∈ linksBetween g paths ↔ b ∈ g.dependencies a := by
  simp only [linksBetween, List.mem_flatMap, List.mem_filterMap, Option.map_eq_some_iff,
    Prod.mk.injEq, FirstSeen.idxOf?_eq_some_iff nodup]
  constructor
  · rintro ⟨⟨path, k⟩, there, target, depends, l, hl, rfl, rfl⟩
    obtain rfl : path = a :=
      Option.some_inj.mp ((List.mk_mem_zipIdx_iff_getElem?.mp there).symm.trans hi)
    obtain rfl : target = b := Option.some_inj.mp (hl.symm.trans hj)
    exact depends
  · intro depends
    exact ⟨(a, i), List.mk_mem_zipIdx_iff_getElem?.mpr hi, b, depends, j, hj, rfl, rfl⟩

theorem linked_iff_linkedIn (nodup : paths.Nodup) (hi : paths[i]? = some a)
    (hj : paths[j]? = some b) :
    Digraph.Linked paths.length (linksBetween g paths) i j ↔ LinkedIn g paths a b := by
  rw [Digraph.Linked, LinkedIn, mem_linksBetween_iff nodup hi hj, mem_linksBetween_iff nodup hj hi]
  have ilt := (List.getElem?_eq_some_iff.mp hi).1
  have jlt := (List.getElem?_eq_some_iff.mp hj).1
  simp [ilt, jlt, List.mem_of_getElem? hi, List.mem_of_getElem? hj]

/-- Two changed files share a part exactly when a chain of changed files joins them in which each
depends on the next or the next on it. -/
theorem exists_part_iff (nodup : paths.Nodup) (ha : a ∈ paths) (hb : b ∈ paths) :
    (∃ part ∈ partsOf (some g) paths, a ∈ part ∧ b ∈ part) ↔
      Relation.ReflTransGen (LinkedIn g paths) a b := by
  have place {path : String} (h : path ∈ paths) : paths[paths.idxOf path]? = some path :=
    List.getElem?_idxOf h
  rw [partsOf, Digraph.exists_block_iff nodup (place ha) (place hb)]
  constructor
  · intro walk
    have files := Relation.ReflTransGen.lift (fun k => paths[k]?.getD "")
      (p := LinkedIn g paths) (fun k l link => ?_) _ _ walk
    · simpa [Function.onFun, place ha, place hb] using files
    · have hk := List.getElem?_eq_getElem link.1.1
      have hl := List.getElem?_eq_getElem link.1.2
      simpa [Function.onFun, hk, hl] using (linked_iff_linkedIn nodup hk hl).mp link
  · exact Relation.ReflTransGen.lift paths.idxOf (fun c d link =>
      (linked_iff_linkedIn nodup (place link.1.1) (place link.1.2)).mpr link) a b

/-- The same for groups. -/
theorem exists_group_iff (nodup : paths.Nodup) (ha : a ∈ paths) (hb : b ∈ paths) :
    (∃ group ∈ form (some g) paths, a ∈ group.files ∧ b ∈ group.files) ↔
      Relation.ReflTransGen (LinkedIn g paths) a b := by
  rw [← exists_part_iff nodup ha hb, ← map_files_form]
  simp

end Group

end CommitSplit
