import CommitSplit.Proofs.Analysis.Engine
import CommitSplit.Proofs.Analysis.Risk

/-!
# What surfaces change

An analysis with surfaces and one without them go through the same stages, and as long as the parser
does not cancel, both end with a report or neither does. The graphs have the same files and the same
dependencies, so the groups, their orders and their cycles are the same, and surfaces can only raise
a risk. A file that cannot be parsed keeps its node and is warned about. It does not matter for any
other file. A file is flagged only if its own surface was parsed and counts as changed.
-/

namespace CommitSplit

/-! ## Groups -/

theorem Graph.memberRisk_le_mapNodes {f : Node → Node} (keeps : ∀ node, (f node).path = node.path)
    (raises : ∀ node, node.risk ≤ (f node).risk) (g : Graph) (path : String) :
    g.memberRisk path ≤ (g.mapNodes f).memberRisk path := by
  have cyclic_eq : (g.mapNodes f).isInCycle path = g.isInCycle path := rfl
  rw [memberRisk, memberRisk, cyclic_eq, node?_mapNodes keeps]
  split
  · exact le_rfl
  · cases g.node? path with
    | none => exact le_rfl
    | some node => exact raises node

namespace Group

/-- The same group but for its rationale and a risk that may be higher. -/
structure Raises (raised plain : Group) : Prop where
  id_eq : raised.id = plain.id
  files_eq : raised.files = plain.files
  containsCycle_eq : raised.containsCycle = plain.containsCycle
  order_eq : raised.order = plain.order
  risk_le : plain.risk ≤ raised.risk

protected theorem Raises.refl (group : Group) : Raises group group :=
  ⟨rfl, rfl, rfl, rfl, le_rfl⟩

theorem raises_linked {f : Node → Node} (keeps : ∀ node, (f node).path = node.path)
    (raises : ∀ node, node.risk ≤ (f node).risk) (g : Graph) (i : Nat) (files : List String) :
    Raises (linked (g.mapNodes f) i files) (linked g i files) where
  id_eq := rfl
  files_eq := rfl
  containsCycle_eq := rfl
  order_eq := by rw [linked, linked, Graph.orderWithin_mapNodes keeps]
  risk_le := Risk.maximum_mono fun path _ => Graph.memberRisk_le_mapNodes keeps raises g path

/-- Nodes that keep their paths and do not lose risk leave the groups as they are, but for a higher
risk. -/
theorem raises_form {f : Node → Node} (keeps : ∀ node, (f node).path = node.path)
    (raises : ∀ node, node.risk ≤ (f node).risk) (g : Graph) (paths : List String) :
    List.Forall₂ Raises (form (some (g.mapNodes f)) paths) (form (some g) paths) := by
  have links_eq : linksBetween (g.mapNodes f) paths = linksBetween g paths := by
    rw [linksBetween, linksBetween]
    simp only [Graph.dependencies_mapNodes keeps]
  rw [form, form, links_eq, List.forall₂_map_left_iff, List.forall₂_map_right_iff]
  exact List.forall₂_same.mpr fun part _ => raises_linked keeps raises g part.2 part.1

end Group

/-! ## Assemblies -/

namespace Assembly

variable {parser : SurfaceParser} {kinds : List (String × ChangeKind)}
  {modules : List ScannedModule} {node : Node}

/-- What becomes of a node, one case for each answer to the question for its surface. -/
inductive Becomes (parser : SurfaceParser) (kinds : List (String × ChangeKind)) (node : Node) :
    Node → Prop
  | not_asked : isEligible parser kinds node = false → Becomes parser kinds node node
  | parsed {s : Surface} : isEligible parser kinds node = true →
      (parser.parse node.path).answer = .ok s → Becomes parser kinds node (node.withSurface s)
  | kept {cause : Fault} : isEligible parser kinds node = true →
      (parser.parse node.path).answer = .error cause → Becomes parser kinds node node

/-- The warning about a node whose surface was asked for in vain. -/
def failureWarning? (parser : SurfaceParser) (kinds : List (String × ChangeKind)) (node : Node) :
    Option String :=
  match isEligible parser kinds node, (parser.parse node.path).answer with
  | true, .error cause => some (SkippedEnhancement.message ⟨node.path, cause⟩)
  | _, _ => none

/-- How the assembly with surfaces differs from the one without them. -/
structure AddsSurfaces (parser : SurfaceParser) (kinds : List (String × ChangeKind))
    (surfaced plain : Assembly) : Prop where
  /-- The nodes keep their places, and what becomes of one depends on the answer for its own path
  only. -/
  nodes : List.Forall₂ (Becomes parser kinds)
    (Graph.nodesOf plain.graph.entries) (Graph.nodesOf surfaced.graph.entries)
  /-- Each node that could not be parsed adds one warning, in the order of the nodes. -/
  warnings : surfaced.warnings = plain.warnings ++
    (Graph.nodesOf plain.graph.entries).filterMap (failureWarning? parser kinds)

theorem becomes_surfaced (parser : SurfaceParser) (kinds : List (String × ChangeKind))
    (node : Node) : Becomes parser kinds node (surfaced (some parser) kinds node) := by
  rw [surfaced, enhancement]
  cases eligible : isEligible parser kinds node with
  | false => exact .not_asked eligible
  | true =>
      cases answer : (parser.parse node.path).answer with
      | ok s => exact .parsed eligible answer
      | error cause => exact .kept eligible answer

theorem failureWarning?_eq (parser : SurfaceParser) (kinds : List (String × ChangeKind))
    (node : Node) :
    failureWarning? parser kinds node =
      (enhancement parser kinds node).2.map SkippedEnhancement.message := by
  rw [failureWarning?, enhancement]
  cases isEligible parser kinds node with
  | false => rfl
  | true => cases (parser.parse node.path).answer <;> rfl

/-- The assembly of a scan, with surfaces or without them. -/
def ofScan (parser : SurfaceParser) (kinds : List (String × ChangeKind))
    (modules : List ScannedModule) (enhance : Bool) : Assembly :=
  put kinds modules (enhancements (if enhance then some parser else none) kinds
    (plainNodes kinds (collectReports modules)))

theorem graph_ofScan_false (parser : SurfaceParser) (kinds : List (String × ChangeKind))
    (modules : List ScannedModule) :
    (ofScan parser kinds modules false).graph = plainGraph kinds modules := by
  change buildGraph _ _ ((enhancements none kinds _).map Prod.fst) = _
  rw [map_fst_enhancements]
  exact congrArg _ (List.map_id _)

theorem graph_ofScan_true (h : IsNormal kinds modules) (parser : SurfaceParser) :
    (ofScan parser kinds modules true).graph =
      (plainGraph kinds modules).mapNodes (surfaced (some parser) kinds) :=
  h.graph_put (some parser)

theorem cycles_ofScan (h : IsNormal kinds modules) (parser : SurfaceParser) :
    (ofScan parser kinds modules true).graph.cycles =
      (ofScan parser kinds modules false).graph.cycles := by
  rw [graph_ofScan_false, graph_ofScan_true h]
  rfl

theorem raises_form_ofScan (h : IsNormal kinds modules) (parser : SurfaceParser)
    (paths : List String) :
    List.Forall₂ Group.Raises (Group.form (some (ofScan parser kinds modules true).graph) paths)
      (Group.form (some (ofScan parser kinds modules false).graph) paths) := by
  rw [graph_ofScan_false, graph_ofScan_true h]
  exact Group.raises_form (path_surfaced _ kinds) (le_risk_surfaced _ kinds) _ paths

theorem addsSurfaces_ofScan (h : IsNormal kinds modules) (parser : SurfaceParser) :
    AddsSurfaces parser kinds (ofScan parser kinds modules true)
      (ofScan parser kinds modules false) where
  nodes := by
    rw [graph_ofScan_false, graph_ofScan_true h, Graph.entries_mapNodes,
      Graph.nodesOf_mapEntries, List.forall₂_map_right_iff]
    exact List.forall₂_same.mpr fun node _ => becomes_surfaced parser kinds node
  warnings := by
    rw [graph_ofScan_false, h.nodesOf_plainGraph]
    simp [ofScan, put, enhancements, List.filterMap_map, Function.comp_def, failureWarning?_eq,
      List.map_filterMap]

/-- Where a changed surface shows in a node it was parsed. -/
theorem IsNormal.exists_of_node?_surfaced (h : IsNormal kinds modules)
    {parser : Option SurfaceParser} {path : String}
    (found : ((plainGraph kinds modules).mapNodes (surfaced parser kinds)).node? path = some node)
    (shows : node.surfaceChanged = true ∨ node.risk = .high) :
    ∃ p s, parser = some p ∧ (p.parse path).answer = .ok s ∧ s.changed = true := by
  rw [Graph.node?_mapNodes (path_surfaced parser kinds), Option.map_eq_some_iff] at found
  obtain ⟨plain, found, rfl⟩ := found
  rw [Graph.node?_eq_some_iff (wellFormed_plainGraph _ _).distinct, h.nodesOf_plainGraph] at found
  obtain ⟨there, rfl⟩ := found
  obtain ⟨path, kind, rfl⟩ := exists_of_mem_plainNodes there
  have unflagged : ¬(Node.ofChangeKind path kind).surfaceChanged = true := Bool.false_ne_true
  have baseline := Node.risk_ofChangeKind_ne_high path kind
  rcases surfaced_eq_or parser kinds (Node.ofChangeKind path kind) with
    same | ⟨p, s, asked, -, answer, same⟩
  · rw [same] at shows
    exact absurd shows (not_or_intro unflagged baseline)
  · refine ⟨p, s, asked, answer, ?_⟩
    rw [same, Node.risk_withSurface] at shows
    rcases shows with flagged | high
    · exact flagged
    · by_contra unchanged
      rw [if_neg unchanged] at high
      exact baseline high

end Assembly

/-! ## Runs with surfaces and without them -/

/-- Whether an assembly ends with a graph does not depend on surfaces. -/
theorem assemble_ofScan {source : EdgeSource} {parser : SurfaceParser} {changes : List Change}
    {assembly : Assembly} {enhance : Bool} {c c' : Cancellation} (quiet : parser.NeverCancels)
    (h : (assemble source (some parser) changes enhance).start c = (.ok assembly, c')) :
    let kinds := Assembly.firstKinds changes
    ∃ modules, (source (kinds.map Prod.fst)).answer = .ok modules ∧
      ∀ enhance, (assemble source (some parser) changes enhance).start c =
        (.ok (Assembly.ofScan parser kinds modules enhance), c') := by
  have never : ∀ p ∈ some parser, p.NeverCancels := by
    rintro p ⟨⟩
    exact quiet
  obtain ⟨modules, answer, flags, -⟩ := assemble_eq_ok_iff.mp h
  rw [Assembly.anyCancels_of_neverCancels never] at flags
  refine ⟨modules, answer, fun enhance => assemble_eq_ok_iff.mpr ⟨modules, answer, ?_, rfl⟩⟩
  rwa [Assembly.anyCancels_of_neverCancels never]

namespace Engine

variable {source : EdgeSource} {parser : SurfaceParser} {changes : List Change}
  {options : Options} {mode : Mode} {scan : Option (List ScannedModule)} {c c' : Cancellation}

/-- The scan behind an analysis: a simple one has none, and the one of a complex analysis succeeds
and is assembled with surfaces as well as without them. -/
inductive Scans (source : EdgeSource) (parser : SurfaceParser) (changes : List Change)
    (c : Cancellation) : Mode → Option (List ScannedModule) → Prop
  | simple : Scans source parser changes c .simple none
  | complex {modules : List ScannedModule} :
      (source ((Assembly.firstKinds changes).map Prod.fst)).answer = .ok modules →
      (∀ enhance, ∃ c', (assemble source (some parser) changes enhance).start c =
        (.ok (Assembly.ofScan parser (Assembly.firstKinds changes) modules enhance), c')) →
      Scans source parser changes c .complex (some modules)

/-- The graph that a scan gives, with what there is to say about it. -/
def graphOfScan (parser : SurfaceParser) (changes : List Change)
    (scan : Option (List ScannedModule)) (enhance : Bool) : Option Graph × List String :=
  match scan with
  | none => (none, [])
  | some modules =>
    let assembly := Assembly.ofScan parser (Assembly.firstKinds changes) modules enhance
    (some assembly.graph, assembly.warnings)

theorem graphFor_ofScan (quiet : parser.NeverCancels) {enhance : Bool}
    {result : Option Graph × List String}
    (h : (graphFor ⟨source, some parser⟩ mode changes { options with enhance }).start c =
      (.ok result, c')) :
    ∃ scan, Scans source parser changes c mode scan ∧
      ∀ enhance, (graphFor ⟨source, some parser⟩ mode changes { options with enhance }).start c =
        (.ok (graphOfScan parser changes scan enhance), c') := by
  cases mode with
  | simple =>
      rw [graphFor, Run.start_pure] at h
      cases h
      exact ⟨none, .simple, fun _ => rfl⟩
  | complex =>
      obtain ⟨assembly, middle, assembled, last⟩ := Run.start_bind_eq_ok_iff.mp h
      obtain ⟨modules, answer, all⟩ := assemble_ofScan quiet assembled
      cases last
      refine ⟨some modules, .complex answer fun enhance => ⟨_, all enhance⟩, fun enhance => ?_⟩
      refine Run.start_bind_eq_ok_iff.mpr ⟨_, _, all enhance, ?_⟩
      cases enhance <;> rfl

/-- Whether an analysis ends with a report does not depend on surfaces. -/
theorem analyze_ofScan (quiet : parser.NeverCancels) {enhance : Bool} {report : Report}
    (h : (analyze ⟨source, some parser⟩ changes { options with enhance }).start c =
      (.ok report, c')) :
    ∃ exclusion, Exclusion.ofPatterns options.exclude = .ok exclusion ∧
      let set := ChangeSet.collect exclusion changes
      (∀ path ∈ set.paths, Path.normalize path = path) ∧
        ∃ scan, Scans source parser set.changes c (modeFor set options) scan ∧
          ∀ enhance, (analyze ⟨source, some parser⟩ changes { options with enhance }).start c =
            (.ok (reportOf set options (graphOfScan parser set.changes scan enhance).1
              (graphOfScan parser set.changes scan enhance).2), c') := by
  obtain ⟨exclusion, patterns, normal, graph, warnings, ⟨calm, graphed, calm'⟩, -⟩ :=
    analyze_eq_ok_iff.mp h
  obtain ⟨scan, scanned, all⟩ := graphFor_ofScan quiet graphed
  refine ⟨exclusion, patterns, normal, scan, scanned, fun enhance => analyze_eq_ok_iff.mpr ?_⟩
  exact ⟨exclusion, patterns, normal, _, _, ⟨calm, all enhance, calm'⟩, rfl⟩

/-! ## Flags -/

/-- A file is flagged, or a high risk without being on a cycle, only if its surface was parsed and
counts as changed. -/
theorem Finished.exists_changed_surface {engine : Engine} {report : Report}
    {exclusion : Exclusion} {graph : Graph} {path : String}
    (h : Finished engine changes options report exclusion (some graph))
    (complex : report.mode = .complex) (reports : engine.source.ReportsNormal)
    (shows : (graph.node? path).any Node.surfaceChanged = true ∨
      graph.isInCycle path = false ∧ graph.memberRisk path = .high) :
    ∃ parser surface, engine.parser = some parser ∧
      (parser.parse path).answer = .ok surface ∧ surface.changed = true := by
  obtain ⟨modules, answer, graph_eq⟩ := h.assembled complex
  have assembled := isNormal_firstKinds_collect h.normal reports answer
  rw [assembled.graph_put] at graph_eq
  have of_node {node : Node} (found : graph.node? path = some node)
      (shows : node.surfaceChanged = true ∨ node.risk = .high) :
      ∃ parser surface, engine.parser = some parser ∧
        (parser.parse path).answer = .ok surface ∧ surface.changed = true := by
    rw [Option.some.inj graph_eq] at found
    obtain ⟨parser, surface, asked, parsed⟩ := assembled.exists_of_node?_surfaced found shows
    split at asked
    · exact ⟨parser, surface, asked, parsed⟩
    · cases asked
  rcases shows with flagged | ⟨acyclic, high⟩
  · obtain ⟨node, found, flagged⟩ := (Option.any_eq_true _ _).mp flagged
    exact of_node found (.inl flagged)
  · rw [Graph.memberRisk, acyclic, if_neg Bool.false_ne_true] at high
    cases found : graph.node? path with
    | some node =>
        rw [found] at high
        exact of_node found (.inr high)
    | none =>
        rw [found] at high
        exact absurd high (Node.risk_ofChangeKind_ne_high path .modified)

/-! ## Reports -/

/-- A report with surfaces and one without them, from the same flag. -/
structure AddsSurfaces (source : EdgeSource) (parser : SurfaceParser) (changes : List Change)
    (options : Options) (c : Cancellation) (surfaced plain : Report) : Prop where
  mode_eq : surfaced.mode = plain.mode
  cycles_eq : surfaced.cycles = plain.cycles
  excluded_eq : surfaced.excluded = plain.excluded
  totalFiles_eq : surfaced.totalFiles = plain.totalFiles
  groups : List.Forall₂ Group.Raises surfaced.groups plain.groups
  /-- The reports come from assemblies that differ in the surfaces of their nodes only. -/
  assemblies : plain.mode = .complex →
    ∃ exclusion, Exclusion.ofPatterns options.exclude = .ok exclusion ∧
      let set := ChangeSet.collect exclusion changes
      ∃ full bare : Assembly,
        (∃ c', (assemble source (some parser) set.changes true).start c = (.ok full, c')) ∧
        (∃ c', (assemble source (some parser) set.changes false).start c = (.ok bare, c')) ∧
        surfaced = reportOf set options (some full.graph) full.warnings ∧
        plain = reportOf set options (some bare.graph) bare.warnings ∧
        Assembly.AddsSurfaces parser (Assembly.firstKinds set.changes) full bare

theorem addsSurfaces_reportOf {exclusion : Exclusion}
    (patterns : Exclusion.ofPatterns options.exclude = .ok exclusion)
    (normal : ∀ path ∈ (ChangeSet.collect exclusion changes).paths, Path.normalize path = path)
    (reports : source.ReportsNormal)
    (scanned : Scans source parser (ChangeSet.collect exclusion changes).changes c
      (modeFor (ChangeSet.collect exclusion changes) options) scan) :
    let set := ChangeSet.collect exclusion changes
    let report := fun enhance =>
      reportOf set options (graphOfScan parser set.changes scan enhance).1
        (graphOfScan parser set.changes scan enhance).2
    AddsSurfaces source parser changes options c (report true) (report false) := by
  intro set report
  generalize mode_eq : modeFor set options = mode at scanned
  cases scanned with
  | simple =>
      refine ⟨rfl, rfl, rfl, rfl, List.forall₂_same.mpr fun group _ => .refl group,
        fun complex => ?_⟩
      exact absurd (mode_eq.symm.trans complex) (by decide)
  | @complex modules answer assembled =>
      have assembly_normal := isNormal_firstKinds_collect normal reports answer
      constructor
      case mode_eq => simp only [report, mode_reportOf]
      case excluded_eq => simp only [report, excluded_reportOf]
      case totalFiles_eq => simp only [report, totalFiles_reportOf]
      case cycles_eq =>
        simp only [report, cycles_reportOf]
        exact Assembly.cycles_ofScan assembly_normal parser
      case groups =>
        simp only [report, groups_reportOf]
        exact Assembly.raises_form_ofScan assembly_normal parser set.paths
      case assemblies =>
        intro complex
        exact ⟨exclusion, patterns, _, _, assembled true, assembled false, rfl, rfl,
          Assembly.addsSurfaces_ofScan assembly_normal parser⟩

/-- Surfaces decide neither whether an analysis ends with a report nor what its groups are. They
raise risks and change the nodes of their own files. -/
theorem addsSurfaces_of_analyze (source : EdgeSource) (parser : SurfaceParser)
    (changes : List Change) (options : Options) (c : Cancellation)
    (reports : source.ReportsNormal) (quiet : parser.NeverCancels) :
    let run := fun enhance =>
      ((analyze ⟨source, some parser⟩ changes { options with enhance }).start c).1
    Attempt.EndAlike (AddsSurfaces source parser changes options c) (run true) (run false) := by
  intro run
  let engine : Engine := ⟨source, some parser⟩
  have same_end {enhance : Bool} {report : Report} {c' : Cancellation}
      (h : (engine.analyze changes { options with enhance }).start c = (.ok report, c')) :
      ∃ surfaced plain, AddsSurfaces source parser changes options c surfaced plain ∧
        (engine.analyze changes { options with enhance := true }).start c = (.ok surfaced, c') ∧
        (engine.analyze changes { options with enhance := false }).start c = (.ok plain, c') := by
    obtain ⟨exclusion, patterns, normal, scan, scanned, all⟩ := analyze_ofScan quiet h
    exact ⟨_, _, addsSurfaces_reportOf patterns normal reports scanned, all true, all false⟩
  dsimp only [run]
  rcases on : (engine.analyze changes { options with enhance := true }).start c with
    ⟨failure | surfaced, c₁⟩
  · rcases off : (engine.analyze changes { options with enhance := false }).start c with
      ⟨failure' | plain, c₂⟩
    · exact .error
    · obtain ⟨_, _, -, on', -⟩ := same_end off
      rw [on] at on'
      cases on'
  · obtain ⟨_, _, adds, on', off⟩ := same_end on
    rw [on] at on'
    cases on'
    rw [off]
    exact .ok adds

/-- The surface of one file raises the risk of its group, and a file that cannot be parsed is warned
about. -/
theorem addsSurfaces_of_partial_table :
    let source : EdgeSource := .ofTable [("a.ts", ["b.ts"])]
    let parser : SurfaceParser := .ofTable [("b.ts", ⟨[], ["f"], true⟩)]
    let changes := [.modified "a.ts", .modified "b.ts", .deleted "c.ts"]
    let groups := fun (risk : Risk) (rationale : String) =>
      [{ id := "group-1", files := ["a.ts", "b.ts"], risk, rationale, containsCycle := false
         order := ["b.ts", "a.ts"] },
        { id := "group-2", files := ["c.ts"], risk := .medium
          rationale := "c.ts has no dependency links to other changed files"
          containsCycle := false, order := ["c.ts"] }]
    let plain : Report := {
      mode := .complex, groups := groups .low "2 files connected by 1 dependency edges"
      totalFiles := 3, elapsedNanos := 0, warnings := [], cycles := [], excluded := []
      validation := [] }
    let surfaced : Report := {
      mode := .complex
      groups :=
        groups .high "2 files connected by 1 dependency edges; 1 with public API changes"
      totalFiles := 3, elapsedNanos := 0
      warnings :=
        ["enhancement skipped for a.ts: no module surface registered for a.ts",
          "1 high-risk groups detected - review recommended"]
      cycles := [], excluded := [], validation := [] }
    let run := fun enhance =>
      ((analyze ⟨source, some parser⟩ changes { Options.default with enhance }).start
        ⟨false, false⟩).1
    (run true = .ok surfaced ∧ run false = .ok plain) ∧
      AddsSurfaces source parser changes .default ⟨false, false⟩ surfaced plain := by
  intro source parser changes groups plain surfaced run
  have on : run true = .ok surfaced := by decide +kernel
  have off : run false = .ok plain := by decide +kernel
  have alike : Attempt.EndAlike _ (run true) (run false) :=
    addsSurfaces_of_analyze source parser changes .default ⟨false, false⟩
      (EdgeSource.reportsNormal_ofTable _) (SurfaceParser.neverCancels_ofTable _)
  rw [on, off] at alike
  refine ⟨⟨on, off⟩, ?_⟩
  cases alike with
  | ok adds => exact adds

end Engine

end CommitSplit
