import CommitSplit.Proofs.Analysis.Nodes

/-!
# What an assembly shows of a scan

An edge source may answer in any order, split the targets of one file over several entries, leave
files out and report files that nobody asked for. Whatever it answers, the graph has a node for each
changed file and then for each other reported one, and the targets of a file are those of all its
entries in the order of the report. Files that were left out are warned about.
-/

namespace CommitSplit

namespace Assembly

/-- The graph and the warnings of an assembly are those of a scan. Entries without a path count for
nothing. -/
structure ShowsScan (changed : List String) (modules : List ScannedModule) (assembly : Assembly) :
    Prop where
  paths_eq : assembly.graph.paths = changed ++
    (FirstSeen.of (modules.map ScannedModule.path)).filter fun path =>
      path ≠ "" ∧ path ∉ changed
  dependencies_eq : ∀ path, path ≠ "" → assembly.graph.dependencies path =
    FirstSeen.of (Graph.keptTargets
      ((modules.filter fun m => m.path = path).flatMap ScannedModule.dependencies))
  no_dependencies : ∀ path, path = "" ∨ path ∉ modules.map ScannedModule.path →
    assembly.graph.dependencies path = []
  warnings_eq : assembly.warnings =
    (changed.filter fun path => path ∉ modules.map ScannedModule.path).map noEntryWarning

variable {kinds : List (String × ChangeKind)} {modules : List ScannedModule} {path : String}

/-! ## Entries with normal paths -/

theorem map_fst_collectReports_of_fixed (fixed : ∀ m ∈ modules, Path.normalize m.path = m.path) :
    (collectReports modules).map Prod.fst =
      (FirstSeen.of (modules.map ScannedModule.path)).filter fun path => path ≠ "" := by
  rw [map_fst_collectReports, List.map_congr_left fixed, FirstSeen.of_filter]

theorem reportedTargets_of_fixed (fixed : ∀ m ∈ modules, Path.normalize m.path = m.path)
    (path : String) :
    reportedTargets modules path =
      (modules.filter fun m => m.path = path).flatMap ScannedModule.dependencies := by
  rw [reportedTargets, List.filter_congr fun m there => by rw [fixed m there]]

/-! ## Graph and warnings -/

namespace IsNormal

/-- The dependencies of a path are the kept targets of its reports. -/
theorem dependencies_plainGraph (h : IsNormal kinds modules) (some_path : path ≠ "") :
    (plainGraph kinds modules).dependencies path =
      FirstSeen.of (Graph.keptTargets (reportedTargets modules path)) := by
  rw [plainGraph, dependencies_buildGraph fun known there =>
    h.normalize_eq_self (mem_nodePaths.mpr there), targets_collectReports some_path]

/-- A path that nothing is reported for has no dependencies. -/
theorem dependencies_plainGraph_of_notMem (h : IsNormal kinds modules)
    (unreported : path ∉ (collectReports modules).map Prod.fst) :
    (plainGraph kinds modules).dependencies path = [] := by
  rw [plainGraph, dependencies_buildGraph fun known there =>
    h.normalize_eq_self (mem_nodePaths.mpr there), Table.lookup_eq_none_iff.mpr unreported]
  rfl

/-- Without surfaces an assembly shows the scan as it is. -/
theorem showsScan_put (h : IsNormal kinds modules) :
    ShowsScan (kinds.map Prod.fst) modules
      (put kinds modules
        (enhancements none kinds (plainNodes kinds (collectReports modules)))) := by
  have reported := map_fst_collectReports_of_fixed h.fixed
  have mem_reported {path : String} : path ∈ (collectReports modules).map Prod.fst ↔
      path ∈ modules.map ScannedModule.path ∧ path ≠ "" := by
    rw [reported, List.mem_filter, FirstSeen.mem_of, decide_eq_true_iff]
  have graph_eq : (put kinds modules
      (enhancements none kinds (plainNodes kinds (collectReports modules)))).graph =
        plainGraph kinds modules := by
    rw [put, map_fst_enhancements]
    exact congrArg (buildGraph kinds (collectReports modules)) (List.map_id _)
  refine ⟨?_, fun path some_path => ?_, fun path unreported => ?_, ?_⟩
  · rw [graph_eq, h.paths_plainGraph, nodePaths, reported, List.filter_filter]
    refine congrArg _ (List.filter_congr fun path _ => ?_)
    rw [Bool.eq_iff_iff, Bool.and_eq_true, Table.isNone_lookup_iff, decide_eq_true_iff,
      decide_eq_true_iff]
    exact and_comm
  · rw [graph_eq, h.dependencies_plainGraph some_path, reportedTargets_of_fixed h.fixed]
  · rw [graph_eq]
    refine h.dependencies_plainGraph_of_notMem fun there => ?_
    obtain ⟨listed, some_path⟩ := mem_reported.mp there
    exact unreported.elim some_path fun absent => absent listed
  · -- No node was enhanced, so no enhancement was skipped.
    have none_skipped :
        ((plainNodes kinds (collectReports modules)).map fun node => (node, none)).filterMap
          Prod.snd = ([] : List SkippedEnhancement) := by
      simp
    rw [put, enhancements, none_skipped, List.map_nil, List.append_nil]
    refine congrArg _ (List.filter_congr fun path there => ?_)
    rw [Bool.eq_iff_iff, Table.isNone_lookup_iff, mem_reported, decide_eq_true_iff]
    exact not_congr (and_iff_left (h.normal path there).2)

end IsNormal

end Assembly

open Assembly

/-- When changed and reported paths are normal, an assembly without surfaces shows what was scanned,
or it is cancelled before it can. -/
theorem assemble_showsScan {source : EdgeSource} {parser : Option SurfaceParser}
    {changes : List Change} {enhance : Bool} {modules : List ScannedModule}
    (without : enhance = false ∨ parser = none)
    (normal : ∀ change ∈ changes, Path.normalize change.path = change.path ∧ change.path ≠ "")
    (answer : (source (FirstSeen.of (changes.map Change.path))).answer = .ok modules)
    (fixed : ∀ m ∈ modules, Path.normalize m.path = m.path) :
    ∃ assembly, ShowsScan (FirstSeen.of (changes.map Change.path)) modules assembly ∧
      ∀ c : Cancellation,
        let behind := c.after (source (FirstSeen.of (changes.map Change.path))).cancels
        (assemble source parser changes enhance).start c =
          (if behind.stops then .error .cancelled else .ok assembly, behind) := by
  have asked : (firstKinds changes).map Prod.fst = FirstSeen.of (changes.map Change.path) :=
    map_fst_firstKinds_of_fixed fun change there => (normal change there).1
  have unused : (if enhance then parser else none) = none := by
    rcases without with rfl | rfl
    · rfl
    · exact ite_self none
  rw [← asked] at answer ⊢
  refine ⟨_, (isNormal_firstKinds normal fixed).showsScan_put, fun c => ?_⟩
  rw [assemble_eq, Stage.sound_oneByOne.start_assembleWith, unused]
  cases stopped : c.stops with
  | true =>
      rw [Cancellation.after_of_stops stopped, if_pos rfl]
      dsimp only
      rw [stopped]
      rfl
  | false =>
      rw [if_neg Bool.false_ne_true]
      dsimp only
      rw [answer]
      dsimp only
      rw [anyCancels, Bool.or_false]

theorem assemble_showsScan_of_split_entries :
    let modules : List ScannedModule :=
      [⟨"c.ts", ["./d.ts", "b.ts"]⟩, ⟨"", ["e.ts"]⟩, ⟨"a.ts", ["c.ts", ""]⟩,
        ⟨"c.ts", ["d.ts", "a.ts"]⟩]
    let source : EdgeSource := fun _ => .plain (.ok modules)
    let changes : List Change := [.modified "b.ts", .modified "a.ts", .deleted "b.ts"]
    ∃ assembly, ShowsScan ["b.ts", "a.ts"] modules assembly ∧
      (assemble source none changes true).start ⟨true, false⟩ = (.ok assembly, ⟨true, false⟩) := by
  intro modules source changes
  have without : true = false ∨ (none : Option SurfaceParser) = none := .inr rfl
  have normal : ∀ change ∈ changes,
      Path.normalize change.path = change.path ∧ change.path ≠ "" := by
    decide
  have answer : (source (FirstSeen.of (changes.map Change.path))).answer = .ok modules := rfl
  have fixed : ∀ m ∈ modules, Path.normalize m.path = m.path := by decide
  obtain ⟨assembly, shows, run⟩ := assemble_showsScan without normal answer fixed
  exact ⟨assembly, shows, run ⟨true, false⟩⟩

end CommitSplit
