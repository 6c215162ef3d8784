import CommitSplit.Analysis.Assembly
import CommitSplit.Proofs.Analysis.Run
import CommitSplit.Proofs.Graph.Targets
import CommitSplit.Proofs.Group.Selection
import CommitSplit.Proofs.Table

/-!
# The dependencies of an assembled graph

Reports for one path are put together in the order in which they came, and the graph lists the
targets of a path as they were reported for it: normal, not empty, each once. Neither the order of
the nodes nor their surfaces matter for that.
-/

namespace CommitSplit

/-- An edge source that reports normal paths when it is asked for normal paths. -/
def EdgeSource.ReportsNormal (source : EdgeSource) : Prop :=
  ∀ paths modules, (∀ path ∈ paths, Path.normalize path = path) →
    (source paths).answer = .ok modules → ∀ m ∈ modules, Path.normalize m.path = m.path

theorem EdgeSource.reportsNormal_ofTable (table : List (String × List String)) :
    (ofTable table).ReportsNormal := by
  intro paths modules normal answer m there
  cases answer
  obtain ⟨path, hpath, rfl⟩ := List.mem_map.mp there
  exact normal path hpath

namespace Assembly

variable {modules : List ScannedModule} {reports : List (String × List String)} {path : String}

/-! ## Changed paths -/

theorem map_fst_firstKinds (changes : List Change) :
    (firstKinds changes).map Prod.fst =
      FirstSeen.of (changes.map fun change => Path.normalize change.path) := by
  induction changes using List.reverseRecOn with
  | nil => rfl
  | append_singleton changes change ih =>
      rw [List.map_append, List.map_singleton, FirstSeen.of_append_singleton, ← ih, FirstSeen.add,
        firstKinds, List.foldl_append, ← firstKinds]
      simp only [List.foldl_cons, List.foldl_nil, Table.isSome_lookup_iff]
      split
      · rfl
      · rw [List.map_append, List.map_singleton]

/-- Changes whose paths are normal are asked for as they are. -/
theorem map_fst_firstKinds_of_fixed {changes : List Change}
    (fixed : ∀ change ∈ changes, Path.normalize change.path = change.path) :
    (firstKinds changes).map Prod.fst = FirstSeen.of (changes.map Change.path) := by
  rw [map_fst_firstKinds, List.map_congr_left fixed]

/-- The kind of a path is that of the first change that names it. -/
theorem lookup_firstKinds (changes : List Change) (path : String) :
    (firstKinds changes).lookup path = (ChangeSet.first? changes path).map Change.kind := by
  induction changes using List.reverseRecOn with
  | nil => rfl
  | append_singleton changes change ih =>
      rw [ChangeSet.first?_append_singleton, firstKinds, List.foldl_append, ← firstKinds]
      simp only [List.foldl_cons, List.foldl_nil]
      by_cases same : Path.normalize change.path = path
      · subst same
        rw [if_pos rfl]
        cases known : ChangeSet.first? changes (Path.normalize change.path) with
        | none => simp [List.lookup_append, ih, known]
        | some first => simp [ih, known]
      · rw [if_neg same, Option.or_none, ← ih]
        split
        · rfl
        · simp [List.lookup_append, Table.lookup_cons_eq_if, Ne.symm same]

/-! ## Reports -/

/-- The targets that modules report for a path, in the order of the reports. -/
def reportedTargets (modules : List ScannedModule) (path : String) : List String :=
  (modules.filter fun m => Path.normalize m.path = path).flatMap ScannedModule.dependencies

theorem collectReports_append_singleton (modules : List ScannedModule) (m : ScannedModule) :
    collectReports (modules ++ [m]) = addReport (collectReports modules) m := by
  simp [collectReports]

theorem lookup_extend (reports : List (String × List String)) (known : String)
    (more : List String) :
    (reports.map fun (other, targets) =>
        if other = known then (other, targets ++ more) else (other, targets)).lookup path =
      if path = known then (reports.lookup known).map (· ++ more) else reports.lookup path := by
  induction reports with
  | nil => simp
  | cons report reports ih =>
      obtain ⟨other, targets⟩ := report
      rw [List.map_cons, Table.lookup_cons_eq_if, Table.lookup_cons_eq_if]
      by_cases hk : other = known
      · subst hk
        simp only [if_true, Table.lookup_cons_eq_if, ih]
        split <;> rfl
      · simp only [if_neg hk, Table.lookup_cons_eq_if, if_neg (Ne.symm hk), ih]
        by_cases hp : path = other
        · subst hp
          simp [hk]
        · simp [hp]

theorem reportedTargets_singleton (m : ScannedModule) (path : String) :
    reportedTargets [m] path = if Path.normalize m.path = path then m.dependencies else [] := by
  by_cases same : Path.normalize m.path = path <;> simp [reportedTargets, same]

/-- A report adds its targets to those of its path. -/
theorem targets_addReport (some_path : path ≠ "") (m : ScannedModule) :
    ((addReport reports m).lookup path).getD [] =
      (reports.lookup path).getD [] ++ reportedTargets [m] path := by
  rw [reportedTargets_singleton]
  unfold addReport
  generalize Path.normalize m.path = reported
  dsimp only
  by_cases same : reported = path
  · subst same
    rw [if_neg some_path, if_pos rfl]
    cases known : reports.lookup reported with
    | none => simp [List.lookup_append, known]
    | some targets => simp [lookup_extend, known]
  · rw [if_neg same, List.append_nil]
    split
    · rfl
    · split
      · rw [lookup_extend, if_neg (Ne.symm same)]
      · simp [List.lookup_append, Table.lookup_cons_eq_if, Ne.symm same]

theorem targets_collectReports (some_path : path ≠ "") :
    ((collectReports modules).lookup path).getD [] = reportedTargets modules path := by
  induction modules using List.reverseRecOn with
  | nil => rfl
  | append_singleton modules m ih =>
      rw [collectReports_append_singleton, targets_addReport some_path, ih, reportedTargets,
        reportedTargets, reportedTargets, List.filter_append, List.flatMap_append]

theorem map_fst_addReport (reports : List (String × List String)) (m : ScannedModule) :
    (addReport reports m).map Prod.fst =
      if Path.normalize m.path = "" then reports.map Prod.fst
      else FirstSeen.add (reports.map Prod.fst) (Path.normalize m.path) := by
  unfold addReport
  generalize Path.normalize m.path = reported
  dsimp only
  split
  · rfl
  · rw [FirstSeen.add]
    simp only [Table.isSome_lookup_iff]
    split
    · rw [List.map_map]
      apply List.map_congr_left
      intro report _
      by_cases same : report.1 = reported <;> simp [same]
    · simp

/-- The reported paths are the normal paths of the modules, without the empty one. -/
theorem map_fst_collectReports (modules : List ScannedModule) :
    (collectReports modules).map Prod.fst =
      FirstSeen.of ((modules.map fun m => Path.normalize m.path).filter fun path => path ≠ "") := by
  induction modules using List.reverseRecOn with
  | nil => rfl
  | append_singleton modules m ih =>
      rw [collectReports_append_singleton, map_fst_addReport, ih, List.map_append,
        List.filter_append]
      by_cases blank : Path.normalize m.path = ""
      · simp [blank]
      · rw [if_neg blank, ← FirstSeen.of_append_singleton]
        simp [blank]

/-- Modules report that one path depends on another. -/
def Reports (modules : List ScannedModule) (a b : String) : Prop :=
  ∃ m ∈ modules, Path.normalize m.path = a ∧ ∃ target ∈ m.dependencies, Path.normalize target = b

theorem mem_keptTargets_reportedTargets {target : String} :
    target ∈ Graph.keptTargets (reportedTargets modules path) ↔
      Reports modules path target ∧ target ≠ "" := by
  rw [Graph.mem_keptTargets]
  refine and_congr_left fun _ => ?_
  simp only [reportedTargets, Reports, List.mem_flatMap, List.mem_filter, decide_eq_true_eq]
  constructor
  · rintro ⟨written, ⟨m, ⟨there, same⟩, listed⟩, normal⟩
    exact ⟨m, there, same, written, listed, normal⟩
  · rintro ⟨m, there, same, written, listed, normal⟩
    exact ⟨written, ⟨m, ⟨there, same⟩, listed⟩, normal⟩

/-! ## The graph -/

theorem targetsOf_foldl_insert (nodes : List Node) (d : Graph.Draft) :
    Graph.targetsOf (nodes.foldl Graph.Draft.insert d).entries path =
      Graph.targetsOf d.entries path := by
  induction nodes generalizing d with
  | nil => rfl
  | cons node nodes ih => rw [List.foldl_cons, ih, Graph.Draft.targetsOf_insert]

/-- Adding the targets of a path once more changes nothing. -/
theorem targetsOf_foldl_addDependencies {paths : List String}
    (fixed : ∀ path ∈ paths, Path.normalize path = path ∧ path ≠ "")
    (targets : String → List String) (d : Graph.Draft) :
    Graph.targetsOf
        (paths.foldl (fun draft path => draft.addDependencies path (targets path)) d).entries path =
      if path ∈ paths then
        (Graph.keptTargets (targets path)).foldl FirstSeen.add (Graph.targetsOf d.entries path)
      else Graph.targetsOf d.entries path := by
  induction paths generalizing d with
  | nil => simp
  | cons first paths ih =>
      obtain ⟨⟨fixed_first, some_path⟩, fixed⟩ := List.forall_mem_cons.mp fixed
      rw [List.foldl_cons, ih fixed, Graph.Draft.targetsOf_addDependencies fixed_first some_path]
      by_cases same : path = first
      · subst same
        simp [FirstSeen.foldl_add_foldl_add]
      · simp [same]

/-- The targets of a path are those that were reported for it. -/
theorem dependencies_buildGraph {kinds : List (String × ChangeKind)} {nodes : List Node}
    (fixed : ∀ path ∈ kinds.map Prod.fst ++ reports.map Prod.fst,
      Path.normalize path = path ∧ path ≠ "") :
    (buildGraph kinds reports nodes).dependencies path =
      FirstSeen.of (Graph.keptTargets ((reports.lookup path).getD [])) := by
  rw [buildGraph, Graph.dependencies_eq, Graph.Draft.build,
    targetsOf_foldl_addDependencies fixed fun path => (reports.lookup path).getD [],
    targetsOf_foldl_insert, Graph.Draft.targetsOf_empty]
  split
  · rfl
  · rename_i unknown
    have no_report : reports.lookup path = none :=
      Table.lookup_eq_none_iff.mpr fun there => unknown (List.mem_append_right _ there)
    rw [no_report]
    rfl

/-- One path depends on another exactly when that was reported. -/
theorem mem_dependencies_buildGraph {kinds : List (String × ChangeKind)} {nodes : List Node}
    {target : String} (normal : ∀ path ∈ kinds.map Prod.fst, Path.normalize path = path ∧ path ≠ "")
    (fixed : ∀ m ∈ modules, Path.normalize m.path = m.path) (some_path : path ≠ "") :
    target ∈ (buildGraph kinds (collectReports modules) nodes).dependencies path ↔
      Reports modules path target ∧ target ≠ "" := by
  have all_fixed : ∀ known ∈ kinds.map Prod.fst ++ (collectReports modules).map Prod.fst,
      Path.normalize known = known ∧ known ≠ "" := by
    intro known there
    rcases List.mem_append.mp there with changed | reported
    · exact normal known changed
    · rw [map_fst_collectReports, FirstSeen.mem_of, List.mem_filter, List.mem_map] at reported
      obtain ⟨⟨m, hm, rfl⟩, some_known⟩ := reported
      rw [fixed m hm] at some_known ⊢
      exact ⟨fixed m hm, by simpa using some_known⟩
  rw [dependencies_buildGraph all_fixed, targets_collectReports some_path, FirstSeen.mem_of,
    mem_keptTargets_reportedTargets]

end Assembly

end CommitSplit
