import CommitSplit.Proofs.Analysis.Cancellation
import CommitSplit.Proofs.Analysis.Linking
import CommitSplit.Proofs.Analysis.Risk
import CommitSplit.Proofs.Group.Matching

/-!
# Changes in another order

The order of the changes decides the places of the nodes, the numbers of the groups and the order in
which files are listed. What a report says about the files does not depend on it: whether a file is
selected, the kind of its change, the dependencies that are reported and so the cycles, the groups
and their risks are all found without looking at places. Only when two changes name one path does
their order count, because the first of them gives the kind.
-/

namespace CommitSplit

/-- An edge source for which the order of a request does not matter: it reports the same modules for
both requests, in any order, or fails for both. -/
def EdgeSource.IgnoresOrder (source : EdgeSource) : Prop :=
  ∀ paths paths', paths.Perm paths' →
    Attempt.EndAlike (fun modules modules' => ∀ m, m ∈ modules ↔ m ∈ modules')
      (source paths).answer (source paths').answer

theorem EdgeSource.ignoresOrder_ofTable (table : List (String × List String)) :
    (ofTable table).IgnoresOrder := by
  intro paths paths' perm
  exact .ok fun m => (perm.map _).mem_iff

/-! ## Selections -/

namespace ChangeSet

variable {changes changes' : List Change} {set set' : ChangeSet} {exclusion : Exclusion}

theorem inputs_perm (perm : changes.Perm changes') : (inputs changes).Perm (inputs changes') :=
  FirstSeen.of_perm ((perm.map _).filter _)

theorem paths_collect_perm (exclusion : Exclusion) (perm : changes.Perm changes') :
    (collect exclusion changes).paths.Perm (collect exclusion changes').paths := by
  rw [paths_collect, paths_collect]
  exact (inputs_perm perm).filter _

theorem normal_of_perm (perm : changes.Perm changes')
    (normal : ∀ path ∈ (collect exclusion changes).paths, Path.normalize path = path) :
    ∀ path ∈ (collect exclusion changes').paths, Path.normalize path = path :=
  fun path there => normal path ((paths_collect_perm exclusion perm).mem_iff.mpr there)

theorem excluded_collect_perm (exclusion : Exclusion) (perm : changes.Perm changes') :
    (collect exclusion changes).excluded.Perm (collect exclusion changes').excluded := by
  rw [excluded_collect, excluded_collect]
  exact (inputs_perm perm).filter _

/-- When no path is named twice, the change that names it first is the only one. -/
theorem first?_eq_of_perm (distinct : (changes.map fun change => Path.normalize change.path).Nodup)
    (perm : changes.Perm changes') (path : String) : first? changes path = first? changes' path := by
  have unique {changes : List Change}
      (distinct : (changes.map fun change => Path.normalize change.path).Nodup) {first : Change} :
      first? changes path = some first ↔
        first ∈ changes ∧ decide (Path.normalize first.path = path) = true := by
    refine Table.find?_eq_some_iff_of_unique fun a ha b hb named named' => ?_
    simp only [decide_eq_true_eq] at named named'
    exact List.inj_on_of_nodup_map distinct ha hb (named.trans named'.symm)
  ext first
  rw [unique distinct, unique ((perm.map _).nodup distinct), perm.mem_iff]

theorem length_eq_of_perm (perm : set.paths.Perm set'.paths) :
    set.changes.length = set'.changes.length := by
  simpa [paths] using perm.length_eq

end ChangeSet

/-! ## Modes -/

/-- The mode depends on the paths of the changes only, and not on their order. -/
theorem selectMode_eq_of_perm {changes changes' : List Change} (limit : Nat)
    (perm : (changes.map Change.path).Perm (changes'.map Change.path)) (request : ModeRequest) :
    selectMode limit changes request = selectMode limit changes' request := by
  cases request with
  | simple => rfl
  | complex => rfl
  | auto =>
      have files := FirstSeen.of_perm perm
      simp only [selectMode, files.length_eq, files.any_eq]

theorem Engine.modeFor_eq_of_perm {set set' : ChangeSet} (perm : set.paths.Perm set'.paths)
    (options : Options) : modeFor set options = modeFor set' options := by
  rw [modeFor, modeFor, selectMode_eq_of_perm options.maxSimpleFiles perm]
  simp only [← List.length_eq_zero_iff, ChangeSet.length_eq_of_perm perm]

/-! ## Graphs -/

namespace Assembly

variable {kinds kinds' : List (String × ChangeKind)} {modules modules' : List ScannedModule}
  {parser : Option SurfaceParser} {path : String}

/-- Two scans for the same changed files that report the same modules, each in its own order. -/
structure Rearranges (kinds kinds' : List (String × ChangeKind))
    (modules modules' : List ScannedModule) : Prop where
  lookup_eq : ∀ path, kinds.lookup path = kinds'.lookup path
  mem_iff : ∀ m, m ∈ modules ↔ m ∈ modules'

namespace Rearranges

theorem mem_changed_iff (h : Rearranges kinds kinds' modules modules') :
    path ∈ kinds.map Prod.fst ↔ path ∈ kinds'.map Prod.fst := by
  rw [← Table.isSome_lookup_iff, ← Table.isSome_lookup_iff, h.lookup_eq]

theorem reports_eq (h : Rearranges kinds kinds' modules modules') :
    Reports modules = Reports modules' := by
  ext a b
  simp only [Reports, h.mem_iff]

theorem mem_nodePaths_iff (h : Rearranges kinds kinds' modules modules') :
    path ∈ nodePaths kinds modules ↔ path ∈ nodePaths kinds' modules' := by
  simp only [mem_nodePaths, List.mem_append, h.mem_changed_iff, mem_map_fst_collectReports,
    h.mem_iff]

/-- What is known about the surface of a node depends on the kind of its change. -/
theorem surfaced_eq (h : Rearranges kinds kinds' modules modules') (node : Node) :
    surfaced parser kinds node = surfaced parser kinds' node := by
  cases parser with
  | none => rfl
  | some p => rw [surfaced, surfaced, enhancement, enhancement, isEligible, isEligible, h.lookup_eq]

section Graphs

variable (h : Rearranges kinds kinds' modules modules') (normal : IsNormal kinds modules)
  (normal' : IsNormal kinds' modules')

include h normal normal'

theorem perm_changed : (kinds.map Prod.fst).Perm (kinds'.map Prod.fst) :=
  (List.perm_ext_iff_of_nodup normal.distinct normal'.distinct).mpr fun _ => h.mem_changed_iff

theorem depends_eq : (plainGraph kinds modules).Depends = (plainGraph kinds' modules').Depends := by
  ext a b
  rw [normal.depends_plainGraph_iff, normal'.depends_plainGraph_iff, h.mem_nodePaths_iff, Leads,
    Leads, h.reports_eq]

theorem isInCycle_eq :
    (plainGraph kinds modules).isInCycle path = (plainGraph kinds' modules').isInCycle path := by
  rw [Bool.eq_iff_iff, (wellFormed_plainGraph _ _).isInCycle_iff,
    (wellFormed_plainGraph _ _).isInCycle_iff, h.depends_eq normal normal']

/-- The cycles have the same files. -/
theorem rel_cycles :
    Multiset.Rel List.Perm ((plainGraph kinds modules).cycles : Multiset (List String))
      ((plainGraph kinds' modules').cycles : Multiset (List String)) := by
  have built := wellFormed_plainGraph kinds modules
  have built' := wellFormed_plainGraph kinds' modules'
  apply built.separate_cycles.rel_perm built'.separate_cycles
  intro a b
  rw [built.exists_cycle_iff, built'.exists_cycle_iff, h.depends_eq normal normal']

/-- The graphs say the same about the changed files. -/
theorem agreeOn (parser : Option SurfaceParser) :
    ((plainGraph kinds modules).mapNodes (surfaced parser kinds)).AgreeOn
      ((plainGraph kinds' modules').mapNodes (surfaced parser kinds')) (kinds.map Prod.fst) where
  dependencies a ha b _ := by
    have some_path := (normal.normal a ha).2
    rw [Graph.dependencies_mapNodes (path_surfaced parser kinds),
      Graph.dependencies_mapNodes (path_surfaced parser kinds'), plainGraph, plainGraph,
      mem_dependencies_buildGraph normal.normal normal.fixed some_path,
      mem_dependencies_buildGraph normal'.normal normal'.fixed some_path, h.reports_eq]
  memberRisk path there := by
    obtain ⟨kind, changed⟩ := Option.isSome_iff_exists.mp (Table.isSome_lookup_iff.mpr there)
    rw [normal.memberRisk_surfaced changed,
      normal'.memberRisk_surfaced (h.lookup_eq path ▸ changed), h.isInCycle_eq normal normal',
      h.surfaced_eq]
  isInCycle path _ := h.isInCycle_eq normal normal'

/-- What the graphs are assembled for is the same. -/
theorem formAlike_put (parser : Option SurfaceParser) :
    Group.FormAlike
      (some (put kinds modules
        (enhancements parser kinds (plainNodes kinds (collectReports modules)))).graph)
      (some (put kinds' modules'
        (enhancements parser kinds' (plainNodes kinds' (collectReports modules')))).graph)
      (kinds.map Prod.fst) (kinds'.map Prod.fst) := by
  rw [normal.graph_put, normal'.graph_put]
  constructor
  case groups =>
    exact Group.rel_matches_form_some normal.distinct (h.perm_changed normal normal')
      (h.agreeOn normal normal' parser)
  case cycles => exact h.rel_cycles normal normal'

end Graphs

end Rearranges

end Assembly

/-! ## Analyses -/

namespace Engine

variable {engine : Engine} {changes changes' : List Change} {options : Options}
  {exclusion : Exclusion}

/-- Reports with the same mode, groups, cycles and excluded files, each in its own order. -/
structure SameUpToOrder (report other : Report) : Prop where
  mode : report.mode = other.mode
  groups : Multiset.Rel Group.Matches (report.groups : Multiset Group)
    (other.groups : Multiset Group)
  cycles : Multiset.Rel List.Perm (report.cycles : Multiset (List String))
    (other.cycles : Multiset (List String))
  excluded : report.excluded.Perm other.excluded
  totalFiles : report.totalFiles = other.totalFiles

/-- An analysis whose caller watches no flag. -/
theorem start_unwatched (patterns : Exclusion.ofPatterns options.exclude = .ok exclusion)
    (raised : Bool) :
    let set := ChangeSet.collect exclusion changes
    ((engine.analyze changes options).start ⟨false, raised⟩).1 =
      (engine.graphed (modeFor set options) set.changes options).1 >>= fun found =>
        conclude exclusion set options found.1 found.2 := by
  intro set
  rw [analyze_eq, start_analyzeWith Assembly.Stage.sound_oneByOne, patterns]
  dsimp only
  obtain ⟨_ | ⟨graph, warnings⟩, cancels⟩ :=
    engine.graphed (modeFor set options) set.changes options <;> rfl

theorem conclude_of_normal
    (normal : ∀ path ∈ (ChangeSet.collect exclusion changes).paths, Path.normalize path = path)
    (graph : Option Graph) (warnings : List String) :
    conclude exclusion (ChangeSet.collect exclusion changes) options graph warnings =
      .ok (reportOf (ChangeSet.collect exclusion changes) options graph warnings) := by
  have valid : Group.Valid graph _ _ := valid_groupsOf_collect_iff.mpr normal
  rw [conclude, Group.validate_eq_ok_iff.mpr valid, groupsOf_collect normal]
  rfl

/-- The edge source is asked about the same changes. -/
theorem rearranges_collect (perm : changes.Perm changes')
    (distinct : (changes.map fun change => Path.normalize change.path).Nodup)
    (normal : ∀ path ∈ (ChangeSet.collect exclusion changes).paths, Path.normalize path = path)
    {modules modules' : List ScannedModule} (same : ∀ m, m ∈ modules ↔ m ∈ modules') :
    Assembly.Rearranges (Assembly.firstKinds (ChangeSet.collect exclusion changes).changes)
      (Assembly.firstKinds (ChangeSet.collect exclusion changes').changes) modules modules' := by
  have paths := ChangeSet.paths_collect_perm exclusion perm
  have normal' := ChangeSet.normal_of_perm perm normal
  refine ⟨fun path => ?_, same⟩
  by_cases there : path ∈ (ChangeSet.collect exclusion changes).paths
  · obtain ⟨first, found, changed⟩ := lookup_firstKinds_collect normal there
    obtain ⟨first', found', changed'⟩ :=
      lookup_firstKinds_collect normal' (paths.mem_iff.mp there)
    rw [ChangeSet.first?_eq_of_perm distinct perm, found', Option.some_inj] at found
    rw [changed, changed', found]
  · rw [Table.lookup_eq_none_iff.mpr (by rwa [map_fst_firstKinds_collect normal]),
      Table.lookup_eq_none_iff.mpr (by rwa [map_fst_firstKinds_collect normal', ← paths.mem_iff])]

/-- Both analyses have a graph that makes the same groups and cycles, or no graph, or none of them
gets that far. -/
theorem graphed_reordered (options : Options) (reports : engine.source.ReportsNormal)
    (unordered : engine.source.IgnoresOrder) (perm : changes.Perm changes')
    (distinct : (changes.map fun change => Path.normalize change.path).Nodup)
    (normal : ∀ path ∈ (ChangeSet.collect exclusion changes).paths, Path.normalize path = path) :
    let set := ChangeSet.collect exclusion changes
    let set' := ChangeSet.collect exclusion changes'
    Attempt.EndAlike
      (fun found found' => Group.FormAlike found.1 found'.1 set.paths set'.paths)
      (engine.graphed (modeFor set options) set.changes options).1
      (engine.graphed (modeFor set' options) set'.changes options).1 := by
  intro set set'
  have paths : set.paths.Perm set'.paths := ChangeSet.paths_collect_perm exclusion perm
  have normal' := ChangeSet.normal_of_perm perm normal
  rw [← modeFor_eq_of_perm paths]
  cases modeFor set options with
  | simple => exact .ok ⟨Group.rel_matches_form_none paths, .zero⟩
  | complex =>
      have requested : (Assembly.firstKinds set.changes).map Prod.fst = set.paths :=
        map_fst_firstKinds_collect normal
      have requested' : (Assembly.firstKinds set'.changes).map Prod.fst = set'.paths :=
        map_fst_firstKinds_collect normal'
      rw [← requested, ← requested'] at paths ⊢
      have answers := unordered _ _ paths
      rw [graphed, graphed]
      dsimp only [scanOf]
      -- From here on the analyses are compared by their answers, which list the same modules.
      generalize answer :
        (engine.source ((Assembly.firstKinds set.changes).map Prod.fst)).answer = result at answers
      generalize answer' :
        (engine.source ((Assembly.firstKinds set'.changes).map Prod.fst)).answer = result' at answers
      cases answers with
      | error => exact .error
      | ok same =>
          have rearranged := rearranges_collect perm distinct normal same
          exact .ok (rearranged.formAlike_put (isNormal_firstKinds_collect normal reports answer)
            (isNormal_firstKinds_collect normal' reports answer') _)

/-- The order of the changes does not matter when no two of them name one path. -/
theorem analyze_reordered (engine : Engine) (changes changes' : List Change) (options : Options)
    (raised : Bool) (reports : engine.source.ReportsNormal)
    (unordered : engine.source.IgnoresOrder) (perm : changes.Perm changes')
    (distinct : (changes.map fun change => Path.normalize change.path).Nodup) :
    Attempt.EndAlike SameUpToOrder ((engine.analyze changes options).start ⟨false, raised⟩).1
      ((engine.analyze changes' options).start ⟨false, raised⟩).1 := by
  by_cases stable : ∃ exclusion, Exclusion.ofPatterns options.exclude = .ok exclusion ∧
      ∀ path ∈ (ChangeSet.collect exclusion changes).paths, Path.normalize path = path
  · obtain ⟨exclusion, patterns, normal⟩ := stable
    have graphs := graphed_reordered options reports unordered perm distinct normal
    have paths := ChangeSet.paths_collect_perm exclusion perm
    rw [start_unwatched patterns, start_unwatched patterns]
    apply graphs.bind
    intro found found' alike
    rw [conclude_of_normal normal, conclude_of_normal (ChangeSet.normal_of_perm perm normal)]
    exact .ok {
      mode := modeFor_eq_of_perm paths options
      groups := alike.groups
      cycles := alike.cycles
      excluded := ChangeSet.excluded_collect_perm exclusion perm
      totalFiles := ChangeSet.length_eq_of_perm paths }
  · -- An analysis with a report selects stable paths, whatever the order is.
    have fails {other : List Change} (perm : changes.Perm other) (report : Report) :
        ((engine.analyze other options).start ⟨false, raised⟩).1 ≠ .ok report := by
      intro ended
      obtain ⟨exclusion, patterns, normal, -⟩ := analyze_eq_ok_iff.mp (Prod.ext ended rfl)
      exact stable ⟨exclusion, patterns, ChangeSet.normal_of_perm perm.symm normal⟩
    exact .of_ne_ok (fails (.refl _)) (fails perm)

/-- The other way round the groups have other numbers, and the files of a cycle are listed in the
order of the changes. -/
theorem analyze_reordered_of_cycle :
    let engine : Engine := ⟨.ofTable [("a.ts", ["b.ts"]), ("b.ts", ["a.ts"])], none⟩
    let changes := [.deleted "c.ts", .modified "b.ts", .added "x.lock", .modified "./a.ts"]
    let options := { Options.default with exclude := ["*.lock"] }
    let alone (id : String) : Group :=
      { id, files := ["c.ts"], risk := .medium
        rationale := "c.ts has no dependency links to other changed files"
        containsCycle := false, order := ["c.ts"] }
    let cycle (id : String) (files : List String) : Group :=
      { id, files, risk := .high
        rationale := "2 files connected by 2 dependency edges; contains a circular dependency"
        containsCycle := true, order := files }
    let report (groups : List Group) (files : List String) : Report :=
      { mode := .complex, groups, totalFiles := 3, elapsedNanos := 0
        warnings :=
          ["1 files excluded by excludeFiles", "1 circular dependencies found",
            "1 high-risk groups detected - review recommended"]
        cycles := [files], excluded := ["x.lock"], validation := [] }
    let first := report [alone "group-1", cycle "group-2" ["b.ts", "a.ts"]] ["b.ts", "a.ts"]
    let second := report [cycle "group-1" ["a.ts", "b.ts"], alone "group-2"] ["a.ts", "b.ts"]
    let run := fun changes => ((engine.analyze changes options).start ⟨false, false⟩).1
    run changes = .ok first ∧ run changes.reverse = .ok second ∧ SameUpToOrder first second := by
  intro engine changes options alone cycle report first second run
  have ended : run changes = .ok first := by decide +kernel
  have ended' : run changes.reverse = .ok second := by decide +kernel
  have alike : Attempt.EndAlike SameUpToOrder (run changes) (run changes.reverse) :=
    analyze_reordered engine changes changes.reverse options false
      (EdgeSource.reportsNormal_ofTable _) (EdgeSource.ignoresOrder_ofTable _)
      (List.reverse_perm _).symm (by decide +kernel)
  rw [ended, ended'] at alike
  cases alike with
  | ok same => exact ⟨ended, ended', same⟩

end Engine

end CommitSplit
