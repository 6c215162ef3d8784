import CommitSplit.Proofs.Analysis.Engine
import Mathlib.Algebra.Order.Ring.Nat

/-!
# How a report divides the changes

A report accounts for every path that the changes name, whatever its mode: the path is in one group
or among the excluded files, and nothing else is. Groups and their files stay in the order in which
the changes name them first. So the group of a path can be looked up by any of its spellings, since
the paths in the groups are normal.
-/

namespace CommitSplit

namespace Engine

open ChangeSet (Precedes)

/-- The groups and the excluded files of a report, as the changes determine them. -/
structure DividesChanges (changes : List Change) (options : Options) (report : Report) : Prop where
  /-- A path that no pattern matches is in one group once. -/
  grouped : ∀ change ∈ changes, Path.normalize change.path ≠ "" →
    ¬options.Excludes (Path.normalize change.path) →
      (report.groups.flatMap Group.files).count (Path.normalize change.path) = 1 ∧
        Path.normalize change.path ∉ report.excluded
  /-- A path that a pattern matches is excluded once. -/
  excluded : ∀ change ∈ changes, Path.normalize change.path ≠ "" →
    options.Excludes (Path.normalize change.path) →
      report.excluded.count (Path.normalize change.path) = 1 ∧
        Path.normalize change.path ∉ report.groups.flatMap Group.files
  /-- No path comes from elsewhere. -/
  named : ∀ path, path ∈ report.groups.flatMap Group.files ∨ path ∈ report.excluded →
    path ≠ "" ∧ ∃ change ∈ changes, Path.normalize change.path = path
  some_file : ∀ group ∈ report.groups, group.files ≠ []
  total : report.totalFiles = (report.groups.map fun group => group.files.length).sum
  files_ordered : ∀ group ∈ report.groups, group.files.Pairwise (Precedes changes)
  groups_ordered :
    (report.groups.filterMap fun group => group.files.head?).Pairwise (Precedes changes)
  ids : ∀ i group, report.groups[i]? = some group → group.id = "group-" ++ toString (i + 1)

variable {engine : Engine} {changes : List Change} {options : Options} {report : Report}
  {exclusion : Exclusion} {graph : Option Graph}

namespace Finished

theorem files_perm (h : Finished engine changes options report exclusion graph) :
    (report.groups.flatMap Group.files).Perm (ChangeSet.collect exclusion changes).paths := by
  rw [List.flatMap_def]
  exact h.divides.perm

theorem mem_files_iff (h : Finished engine changes options report exclusion graph) {path : String} :
    path ∈ report.groups.flatMap Group.files ↔
      path ∈ ChangeSet.inputs changes ∧ ¬options.Excludes path := by
  rw [h.files_perm.mem_iff, ChangeSet.mem_paths_collect, Options.Excludes,
    ← Exclusion.excludes_iff h.patterns, Bool.not_eq_true]

theorem mem_excluded_iff (h : Finished engine changes options report exclusion graph)
    {path : String} :
    path ∈ report.excluded ↔ path ∈ ChangeSet.inputs changes ∧ options.Excludes path := by
  rw [h.excluded_eq, ChangeSet.excluded_collect, List.mem_filter, Options.Excludes,
    ← Exclusion.excludes_iff h.patterns]

theorem nodup_excluded (h : Finished engine changes options report exclusion graph) :
    report.excluded.Nodup := by
  rw [h.excluded_eq, ChangeSet.excluded_collect]
  exact (ChangeSet.nodup_inputs changes).filter _

/-- What is in the order of the selected paths is in the order of the changes. -/
theorem pairwise_precedes {paths : List String}
    (h : paths.Sublist (ChangeSet.collect exclusion changes).paths) :
    paths.Pairwise (Precedes changes) := by
  rw [ChangeSet.paths_collect] at h
  exact (ChangeSet.pairwise_inputs changes).sublist (h.trans List.filter_sublist)

end Finished

/-- An analysis that ends with a report divides its changes, whatever the engine, the options and
the cancellation flag were. -/
theorem dividesChanges_of_analyze (engine : Engine) (changes : List Change) (options : Options)
    (report : Report) (c c' : Cancellation)
    (finished : (engine.analyze changes options).start c = (.ok report, c')) :
    DividesChanges changes options report := by
  obtain ⟨exclusion, graph, h⟩ := exists_finished finished
  refine ⟨?_, ?_, ?_, h.valid.some_files, ?_, ?_, ?_, ?_⟩
  · intro change there some_path kept
    have input := ChangeSet.mem_inputs.mpr ⟨⟨change, there, rfl⟩, some_path⟩
    refine ⟨List.count_eq_one_of_mem h.valid.nodup (h.mem_files_iff.mpr ⟨input, kept⟩), ?_⟩
    exact fun out => kept (h.mem_excluded_iff.mp out).2
  · intro change there some_path out
    have input := ChangeSet.mem_inputs.mpr ⟨⟨change, there, rfl⟩, some_path⟩
    refine ⟨List.count_eq_one_of_mem h.nodup_excluded (h.mem_excluded_iff.mpr ⟨input, out⟩), ?_⟩
    exact fun kept => (h.mem_files_iff.mp kept).2 out
  · intro path there
    have input : path ∈ ChangeSet.inputs changes :=
      there.elim (fun kept => (h.mem_files_iff.mp kept).1) fun out => (h.mem_excluded_iff.mp out).1
    exact (ChangeSet.mem_inputs.mp input).symm
  · have lengths := h.files_perm.length_eq
    rw [List.length_flatMap] at lengths
    rw [h.total_eq, lengths, ChangeSet.paths, List.length_map]
  · intro group there
    exact Finished.pairwise_precedes (h.divides.sublist _ (List.mem_map_of_mem there))
  · have heads := h.divides.heads
    rw [List.filterMap_map] at heads
    exact Finished.pairwise_precedes heads
  · intro i group place
    rw [h.groups_eq_form] at place
    exact Group.id_of_getElem?_form place

/-- A repeated path is grouped once, and a path that a pattern matches is left out. -/
theorem dividesChanges_of_repeated_path :
    let engine : Engine := ⟨.ofTable [], none⟩
    let changes := [.modified "b", .modified "a", ⟨"./b", .deleted, none, none⟩, .added "x.lock"]
    let options := { Options.default with exclude := ["*.lock"] }
    let report : Report := {
      mode := .simple, groups := [Group.alone 0 "b", Group.alone 1 "a"], totalFiles := 2
      elapsedNanos := 0, warnings := ["1 files excluded by excludeFiles"], cycles := []
      excluded := ["x.lock"], validation := [] }
    (engine.analyze changes options).start ⟨false, false⟩ = (.ok report, ⟨false, false⟩) ∧
      DividesChanges changes options report := by
  intro engine changes options report
  have finished : (engine.analyze changes options).start ⟨false, false⟩ =
      (.ok report, ⟨false, false⟩) := by
    decide +kernel
  exact ⟨finished, dividesChanges_of_analyze engine changes options report _ _ finished⟩

/-! ## Looking files up -/

/-- A search by path finds a group exactly when it is the only one that holds the normal path. -/
theorem Finished.groupOf?_eq_some_iff
    (h : Finished engine changes options report exclusion graph) {path : String} {group : Group} :
    report.groupOf? path = some group ↔
      group ∈ report.groups ∧ Path.normalize path ∈ group.files := by
  rw [Report.groupOf?, Table.find?_eq_some_iff_of_unique, decide_eq_true_iff]
  intro group there other there' holds holds'
  simp only [decide_eq_true_eq] at holds holds'
  exact Group.eq_of_mem_files h.valid.nodup there there' holds holds'

/-- In a report every selected path is normal and is found in its group, and what is found for any
text is the one group that holds its normal path. -/
theorem groupOf?_of_analyze (engine : Engine) (changes : List Change) (options : Options)
    (report : Report) (c c' : Cancellation)
    (finished : (engine.analyze changes options).start c = (.ok report, c')) :
    (∃ exclusion, Exclusion.ofPatterns options.exclude = .ok exclusion ∧
      ∀ path ∈ (ChangeSet.collect exclusion changes).paths, Path.normalize path = path) ∧
    (∀ group ∈ report.groups, ∀ file ∈ group.files, report.groupOf? file = some group) ∧
    ∀ path,
      (∀ group, report.groupOf? path = some group ↔
        (group ∈ report.groups ∧ Path.normalize path ∈ group.files) ∧
          ∀ other ∈ report.groups, Path.normalize path ∈ other.files → other = group) ∧
      (report.groupOf? path = none ↔
        ∀ group ∈ report.groups, Path.normalize path ∉ group.files) := by
  obtain ⟨exclusion, graph, h⟩ := exists_finished finished
  refine ⟨⟨exclusion, h.patterns, h.normal⟩, ?_, fun path => ⟨fun group => ?_, ?_⟩⟩
  · intro group there file hfile
    have selected : file ∈ (ChangeSet.collect exclusion changes).paths :=
      h.files_perm.mem_iff.mp (List.mem_flatMap.mpr ⟨group, there, hfile⟩)
    rw [h.groupOf?_eq_some_iff, h.normal file selected]
    exact ⟨there, hfile⟩
  · rw [h.groupOf?_eq_some_iff]
    refine (and_iff_left_of_imp ?_).symm
    rintro ⟨there, holds⟩ other there' holds'
    exact Group.eq_of_mem_files h.valid.nodup there' there holds' holds
  · rw [Report.groupOf?, List.find?_eq_none]
    simp only [decide_eq_true_eq]

/-- A file is found by a spelling that no change used, and a file that was left out is not. -/
theorem groupOf?_of_other_spelling :
    let engine : Engine := ⟨.ofTable [], none⟩
    let changes := [.modified "src/b", .modified "./a", .added "x.lock"]
    let options := { Options.default with exclude := ["*.lock"] }
    let report : Report := {
      mode := .simple, groups := [Group.alone 0 "src/b", Group.alone 1 "a"], totalFiles := 2
      elapsedNanos := 0, warnings := ["1 files excluded by excludeFiles"], cycles := []
      excluded := ["x.lock"], validation := [] }
    (engine.analyze changes options).start ⟨false, false⟩ = (.ok report, ⟨false, false⟩) ∧
      report.groupOf? " .\\src\\c/../b" = some (Group.alone 0 "src/b") ∧
      report.groupOf? "x.lock" = none := by
  intro engine changes options report
  have finished : (engine.analyze changes options).start ⟨false, false⟩ =
      (.ok report, ⟨false, false⟩) := by
    decide +kernel
  obtain ⟨-, -, found⟩ := groupOf?_of_analyze engine changes options report _ _ finished
  refine ⟨finished, ((found _).1 _).mpr ?_, (found _).2.mpr ?_⟩ <;> decide +kernel

end Engine

end CommitSplit
