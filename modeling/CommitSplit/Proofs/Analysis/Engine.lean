import CommitSplit.Analysis.Engine
import CommitSplit.Proofs.Analysis.Nodes
import CommitSplit.Proofs.Group.Formation
import CommitSplit.Proofs.Group.Selection
import CommitSplit.Proofs.Group.Validation
import CommitSplit.Proofs.Path.Normal

/-!
# Finished analyses

An analysis ends with a report exactly when its patterns can be read, its graph is assembled, no
checkpoint stops it and the groups pass the validation. The groups come from a second selection.
They are valid for the first one when both select the same files, and that is when every selected
path is normal.
-/

namespace CommitSplit

namespace Engine

variable {engine : Engine} {changes : List Change} {options : Options} {report : Report}
  {exclusion : Exclusion} {graph : Option Graph} {c c' : Cancellation}

/-! ## The groups of the selected changes -/

/-- Selecting normal paths again changes nothing. -/
theorem groupsOf_collect
    (normal : ∀ path ∈ (ChangeSet.collect exclusion changes).paths, Path.normalize path = path) :
    groupsOf exclusion graph (ChangeSet.collect exclusion changes).changes =
      Group.form graph (ChangeSet.collect exclusion changes).paths := by
  rw [groupsOf, ChangeSet.paths_collect_collect normal]

/-- When the groups are valid every selected path was found among the normal forms of the selected
paths. -/
theorem valid_groupsOf_collect_iff :
    Group.Valid graph (ChangeSet.collect exclusion changes).paths
        (groupsOf exclusion graph (ChangeSet.collect exclusion changes).changes) ↔
      ∀ path ∈ (ChangeSet.collect exclusion changes).paths, Path.normalize path = path := by
  constructor
  · intro valid
    apply Path.normalize_eq_self_of_covered
    intro path there
    have grouped := (valid.mem_iff path).mpr there
    rw [groupsOf, (Group.flatMap_files_form_perm graph _).mem_iff] at grouped
    obtain ⟨change, hchange, same⟩ :=
      (ChangeSet.mem_inputs.mp (ChangeSet.mem_paths_collect.mp grouped).1).1
    exact ⟨change.path, List.mem_map_of_mem hchange, same⟩
  · intro normal
    rw [groupsOf_collect normal]
    exact Group.valid_form graph (ChangeSet.nodup_paths_collect exclusion changes)

/-- Normal selected paths are what is asked for. -/
theorem map_fst_firstKinds_collect
    (normal : ∀ path ∈ (ChangeSet.collect exclusion changes).paths, Path.normalize path = path) :
    (Assembly.firstKinds (ChangeSet.collect exclusion changes).changes).map Prod.fst =
      (ChangeSet.collect exclusion changes).paths := by
  rw [Assembly.map_fst_firstKinds_of_fixed fun change there =>
    normal change.path (List.mem_map_of_mem there)]
  exact FirstSeen.of_eq_self (ChangeSet.nodup_paths_collect exclusion changes)

/-- With a source that reports normal paths, everything that is assembled is normal. -/
theorem isNormal_firstKinds_collect {source : EdgeSource} {modules : List ScannedModule}
    (normal : ∀ path ∈ (ChangeSet.collect exclusion changes).paths, Path.normalize path = path)
    (reports : source.ReportsNormal)
    (answer : (source ((Assembly.firstKinds
      (ChangeSet.collect exclusion changes).changes).map Prod.fst)).answer = .ok modules) :
    Assembly.IsNormal (Assembly.firstKinds (ChangeSet.collect exclusion changes).changes)
      modules := by
  rw [map_fst_firstKinds_collect normal] at answer
  refine Assembly.isNormal_firstKinds (fun change there => ?_) (reports _ _ normal answer)
  have selected : change.path ∈ (ChangeSet.collect exclusion changes).paths :=
    List.mem_map_of_mem there
  exact ⟨normal change.path selected, ChangeSet.ne_empty_of_mem_paths selected⟩

/-! ## Reports -/

/-- The report on selected changes, for a graph and what there is to say about it. -/
def reportOf (set : ChangeSet) (options : Options) (graph : Option Graph)
    (graphWarnings : List String) : Report :=
  let cycles := (graph.map Graph.cycles).getD []
  let groups := Group.form graph set.paths
  { mode := modeFor set options, groups, totalFiles := set.changes.length, elapsedNanos := 0
    warnings := selectionWarnings set ++ graphWarnings ++ outcomeWarnings cycles groups
    cycles, excluded := set.excluded, validation := options.validation }

section ReportOf

variable (set : ChangeSet) (options : Options) (graph : Option Graph) (warnings : List String)

@[simp] theorem mode_reportOf :
    (reportOf set options graph warnings).mode = modeFor set options := rfl

@[simp] theorem groups_reportOf :
    (reportOf set options graph warnings).groups = Group.form graph set.paths := rfl

@[simp] theorem totalFiles_reportOf :
    (reportOf set options graph warnings).totalFiles = set.changes.length := rfl

@[simp] theorem cycles_reportOf :
    (reportOf set options graph warnings).cycles = (graph.map Graph.cycles).getD [] := rfl

@[simp] theorem excluded_reportOf :
    (reportOf set options graph warnings).excluded = set.excluded := rfl

end ReportOf

theorem analyze_eq_ok_iff :
    (engine.analyze changes options).start c = (.ok report, c') ↔
      ∃ exclusion, Exclusion.ofPatterns options.exclude = .ok exclusion ∧
        let set := ChangeSet.collect exclusion changes
        (∀ path ∈ set.paths, Path.normalize path = path) ∧
          ∃ graph warnings,
            (c.stops = false ∧
              (engine.graphFor (modeFor set options) set.changes options).start c =
                (.ok (graph, warnings), c') ∧ c'.stops = false) ∧
            report = reportOf set options graph warnings := by
  simp only [analyze, Run.start_bind_eq_ok_iff, Run.start_checkpoint_eq_ok_iff, Run.start_lift,
    Run.start_pure, Prod.exists, Prod.mk.injEq, Except.ok.injEq]
  constructor
  · rintro ⟨_, _, ⟨calm, rfl⟩, exclusion, _, ⟨patterns, rfl⟩, graph, warnings, _, graphed, _, _,
      ⟨calm', rfl⟩, _, _, ⟨-, rfl⟩, ⟨⟩, _, ⟨validated, rfl⟩, rfl, rfl⟩
    have normal := valid_groupsOf_collect_iff.mp (Group.validate_eq_ok_iff.mp validated)
    refine ⟨exclusion, patterns, normal, graph, warnings, ⟨calm, graphed, calm'⟩, ?_⟩
    rw [reportOf, groupsOf_collect normal]
  · rintro ⟨exclusion, patterns, normal, graph, warnings, ⟨calm, graphed, calm'⟩, rfl⟩
    refine ⟨(), _, ⟨calm, rfl⟩, exclusion, _, ⟨patterns, rfl⟩, graph, warnings, _, graphed, (), _,
      ⟨calm', rfl⟩, (), _, ⟨calm', rfl⟩, (), _, ⟨?_, rfl⟩, ?_, rfl⟩
    · exact Group.validate_eq_ok_iff.mpr (valid_groupsOf_collect_iff.mpr normal)
    · rw [reportOf, groupsOf_collect normal]

/-- What an analysis with a report went through. -/
structure Finished (engine : Engine) (changes : List Change) (options : Options)
    (report : Report) (exclusion : Exclusion) (graph : Option Graph) : Prop where
  patterns : Exclusion.ofPatterns options.exclude = .ok exclusion
  normal : ∀ path ∈ (ChangeSet.collect exclusion changes).paths, Path.normalize path = path
  graphed : ∃ warnings c c',
    let set := ChangeSet.collect exclusion changes
    (engine.graphFor (modeFor set options) set.changes options).start c =
        (.ok (graph, warnings), c') ∧
      report = reportOf set options graph warnings

theorem exists_finished (h : (engine.analyze changes options).start c = (.ok report, c')) :
    ∃ exclusion graph, Finished engine changes options report exclusion graph := by
  obtain ⟨exclusion, patterns, normal, graph, warnings, ⟨-, graphed, -⟩, report_eq⟩ :=
    analyze_eq_ok_iff.mp h
  exact ⟨exclusion, graph, patterns, normal, warnings, c, c', graphed, report_eq⟩

namespace Finished

theorem groups_eq_form (h : Finished engine changes options report exclusion graph) :
    report.groups = Group.form graph (ChangeSet.collect exclusion changes).paths := by
  obtain ⟨_, _, _, -, rfl⟩ := h.graphed
  rfl

theorem mode_eq (h : Finished engine changes options report exclusion graph) :
    report.mode = modeFor (ChangeSet.collect exclusion changes) options := by
  obtain ⟨_, _, _, -, rfl⟩ := h.graphed
  rfl

theorem total_eq (h : Finished engine changes options report exclusion graph) :
    report.totalFiles = (ChangeSet.collect exclusion changes).changes.length := by
  obtain ⟨_, _, _, -, rfl⟩ := h.graphed
  rfl

theorem excluded_eq (h : Finished engine changes options report exclusion graph) :
    report.excluded = (ChangeSet.collect exclusion changes).excluded := by
  obtain ⟨_, _, _, -, rfl⟩ := h.graphed
  rfl

theorem cycles_eq (h : Finished engine changes options report exclusion graph) :
    report.cycles = (graph.map Graph.cycles).getD [] := by
  obtain ⟨_, _, _, -, rfl⟩ := h.graphed
  rfl

theorem valid (h : Finished engine changes options report exclusion graph) :
    Group.Valid graph (ChangeSet.collect exclusion changes).paths report.groups := by
  rw [h.groups_eq_form]
  exact Group.valid_form graph (ChangeSet.nodup_paths_collect exclusion changes)

/-- A simple analysis has no graph. -/
theorem graph_eq_none (h : Finished engine changes options report exclusion graph)
    (simple : report.mode = .simple) : graph = none := by
  obtain ⟨warnings, c, c', graphed, -⟩ := h.graphed
  rw [← h.mode_eq, simple, graphFor, Run.start_pure] at graphed
  cases graphed
  rfl

/-- A complex analysis assembles its graph from the selected changes. -/
theorem assembled (h : Finished engine changes options report exclusion graph)
    (complex : report.mode = .complex) :
    let kinds := Assembly.firstKinds (ChangeSet.collect exclusion changes).changes
    ∃ modules, (engine.source (kinds.map Prod.fst)).answer = .ok modules ∧
      graph = some (Assembly.put kinds modules
        (Assembly.enhancements (if options.enhance then engine.parser else none) kinds
          (Assembly.plainNodes kinds (Assembly.collectReports modules)))).graph := by
  obtain ⟨warnings, c, c', graphed, -⟩ := h.graphed
  rw [← h.mode_eq, complex, graphFor] at graphed
  obtain ⟨assembly, _, assembled, graphed⟩ := Run.start_bind_eq_ok_iff.mp graphed
  obtain ⟨modules, answer, -, rfl⟩ := assemble_eq_ok_iff.mp assembled
  rw [Run.start_pure] at graphed
  cases graphed
  exact ⟨modules, answer, rfl⟩

theorem scanned (h : Finished engine changes options report exclusion graph)
    (complex : report.mode = .complex) :
    let kinds := Assembly.firstKinds (ChangeSet.collect exclusion changes).changes
    ∃ modules nodes, (engine.source (kinds.map Prod.fst)).answer = .ok modules ∧
      graph = some (Assembly.buildGraph kinds (Assembly.collectReports modules) nodes) := by
  obtain ⟨modules, answer, graph_eq⟩ := h.assembled complex
  exact ⟨modules, _, answer, graph_eq⟩

/-- The edge source is asked for the selected paths. -/
theorem requested (h : Finished engine changes options report exclusion graph) :
    (Assembly.firstKinds (ChangeSet.collect exclusion changes).changes).map Prod.fst =
      (ChangeSet.collect exclusion changes).paths :=
  map_fst_firstKinds_collect h.normal

theorem divides (h : Finished engine changes options report exclusion graph) :
    Divides (report.groups.map Group.files) (ChangeSet.collect exclusion changes).paths := by
  rw [h.groups_eq_form, Group.map_files_form]
  exact Group.divides_partsOf graph _

end Finished

end Engine

end CommitSplit
