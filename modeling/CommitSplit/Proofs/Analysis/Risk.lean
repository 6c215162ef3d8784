import CommitSplit.Proofs.Analysis.Engine
import CommitSplit.Proofs.Risk

/-!
# The risk of a group

The risk of a file has three origins: what happened to it first, what a parser says about its
surface, and a cycle that it lies on. They meet in different places of an analysis, but no place
takes back what another one has found. So the risk of a file is the greatest one that has a reason,
and a group has the greatest risk of its files.
-/

namespace CommitSplit

namespace Node

variable {path : String}

theorem path_ofChangeKind (normal : Path.normalize path = path) (kind : ChangeKind) :
    (ofChangeKind path kind).path = path := normal

theorem risk_ofChangeKind (normal : Path.normalize path = path) (kind : ChangeKind) :
    (ofChangeKind path kind).risk = baselineRisk (NodeKind.ofPath path) kind := by
  simp only [ofChangeKind, normal]

/-- What happened to a file is never a high risk by itself. -/
theorem baselineRisk_ne_high (kind : NodeKind) (change : ChangeKind) :
    baselineRisk kind change ≠ .high := by
  unfold baselineRisk
  split <;> decide

theorem risk_ofChangeKind_ne_high (path : String) (kind : ChangeKind) :
    (ofChangeKind path kind).risk ≠ .high := by
  simp only [ofChangeKind]
  exact baselineRisk_ne_high _ kind

theorem risk_withSurface (node : Node) (s : Surface) :
    (node.withSurface s).risk = if s.changed then .high else node.risk := rfl

end Node

namespace Assembly

/-! ## Reasons -/

/-- The risks for which a changed file gives a reason. The kind is that of its first change. -/
inductive Poses (parser : Option SurfaceParser) (modules : List ScannedModule)
    (kind : ChangeKind) (path : String) : Risk → Prop
  | any : Poses parser modules kind path .low
  | config : NodeKind.ofPath path = .config → Poses parser modules kind path .medium
  | deleted : NodeKind.ofPath path = .source → kind = .deleted →
      Poses parser modules kind path .medium
  /-- Its surface was parsed and differs from the one before. -/
  | surface {p : SurfaceParser} {s : Surface} : parser = some p → kind ≠ .deleted →
      NodeKind.ofPath path = .source → p.supports path = true →
      (p.parse path).answer = .ok s → s.changed = true → Poses parser modules kind path .high
  /-- Reported dependencies lead from the file back to itself. -/
  | cycle : Relation.TransGen (Leads modules) path path → Poses parser modules kind path .high

variable {parser : Option SurfaceParser} {p : SurfaceParser} {kinds : List (String × ChangeKind)}
  {modules : List ScannedModule} {path : String} {kind : ChangeKind} {node : Node}

theorem Poses.baseline (parser : Option SurfaceParser) (modules : List ScannedModule)
    (kind : ChangeKind) (path : String) :
    Poses parser modules kind path (Node.baselineRisk (NodeKind.ofPath path) kind) := by
  cases same : NodeKind.ofPath path with
  | config => exact .config same
  | asset => exact .any
  | other => exact .any
  | source =>
      cases kind with
      | deleted => exact .deleted same rfl
      | added => exact .any
      | modified => exact .any
      | renamed => exact .any

/-! ## Nodes -/

/-- A changed file has its surface parsed when it is source, not deleted and supported. -/
theorem isEligible_ofChangeKind_iff (normal : Path.normalize path = path)
    (changed : kinds.lookup path = some kind) :
    isEligible p kinds (Node.ofChangeKind path kind) = true ↔
      kind ≠ .deleted ∧ NodeKind.ofPath path = .source ∧ p.supports path = true := by
  simp [isEligible, SurfaceParser.canEnhance, Node.ofChangeKind, normal, changed]

/-- No surface lowers a risk. -/
theorem le_risk_surfaced (parser : Option SurfaceParser) (kinds : List (String × ChangeKind))
    (node : Node) : node.risk ≤ (surfaced parser kinds node).risk := by
  rcases surfaced_eq_or parser kinds node with same | ⟨p, s, -, -, -, same⟩
  · rw [same]
  · rw [same, Node.risk_withSurface]
    split
    · exact Risk.le_high _
    · exact le_rfl

/-- The risk of the node of a changed file has a reason. -/
theorem poses_risk_surfaced (normal : Path.normalize path = path)
    (changed : kinds.lookup path = some kind) :
    Poses parser modules kind path (surfaced parser kinds (Node.ofChangeKind path kind)).risk := by
  have baseline := Poses.baseline parser modules kind path
  rw [← Node.risk_ofChangeKind normal] at baseline
  rcases surfaced_eq_or parser kinds (Node.ofChangeKind path kind) with
    same | ⟨p, s, asked, eligible, answer, same⟩
  · rw [same]
    exact baseline
  · rw [same, Node.risk_withSurface]
    split
    · rename_i altered
      obtain ⟨kept, source, supported⟩ := (isEligible_ofChangeKind_iff normal changed).mp eligible
      rw [Node.path_ofChangeKind normal] at answer
      exact .surface asked kept source supported answer altered
    · exact baseline

/-- Every reason but a cycle shows in the node. -/
theorem le_risk_surfaced_of_poses {risk : Risk} (normal : Path.normalize path = path)
    (changed : kinds.lookup path = some kind)
    (acyclic : ¬Relation.TransGen (Leads modules) path path)
    (poses : Poses parser modules kind path risk) :
    risk ≤ (surfaced parser kinds (Node.ofChangeKind path kind)).risk := by
  have baseline := le_risk_surfaced parser kinds (Node.ofChangeKind path kind)
  rw [Node.risk_ofChangeKind normal] at baseline
  cases poses with
  | any => exact Risk.low_le _
  | config is_config =>
      rw [is_config, Node.baselineRisk] at baseline
      exact baseline
  | deleted is_source gone =>
      subst gone
      rw [is_source, Node.baselineRisk] at baseline
      exact baseline
  | @surface p s asked kept source supported answer altered =>
      have eligible : isEligible p kinds (Node.ofChangeKind path kind) = true :=
        (isEligible_ofChangeKind_iff normal changed).mpr ⟨kept, source, supported⟩
      have same : surfaced parser kinds (Node.ofChangeKind path kind) =
          (Node.ofChangeKind path kind).withSurface s := by
        rw [asked, surfaced, enhancement, if_pos eligible, Node.path_ofChangeKind normal, answer]
        rfl
      rw [same, Node.risk_withSurface, if_pos altered]
  | cycle leads => exact absurd leads acyclic

/-! ## Files -/

namespace IsNormal

/-- The risk of a changed file is high on a cycle, and else that of its node. -/
theorem memberRisk_surfaced (h : IsNormal kinds modules)
    (changed : kinds.lookup path = some kind) :
    ((plainGraph kinds modules).mapNodes (surfaced parser kinds)).memberRisk path =
      if (plainGraph kinds modules).isInCycle path then .high
      else (surfaced parser kinds (Node.ofChangeKind path kind)).risk := by
  rw [Graph.memberRisk, Graph.node?_mapNodes (path_surfaced parser kinds),
    h.node?_plainGraph changed]
  rfl

/-- The risk of a changed file is the greatest that it poses. -/
theorem isGreatest_memberRisk (h : IsNormal kinds modules)
    (changed : kinds.lookup path = some kind) :
    IsGreatest {risk | Poses parser modules kind path risk}
      (((plainGraph kinds modules).mapNodes (surfaced parser kinds)).memberRisk path) := by
  have normal : Path.normalize path = path :=
    (h.normal path (List.mem_map_of_mem (Table.mem_of_lookup_eq_some changed))).1
  rw [h.memberRisk_surfaced changed]
  split
  · rename_i cyclic
    exact ⟨.cycle (h.isInCycle_plainGraph_iff.mp cyclic), fun risk _ => Risk.le_high risk⟩
  · rename_i acyclic
    rw [h.isInCycle_plainGraph_iff] at acyclic
    exact ⟨poses_risk_surfaced normal changed,
      fun risk poses => le_risk_surfaced_of_poses normal changed acyclic poses⟩

end IsNormal

end Assembly

/-! ## Groups -/

namespace Engine

/-- The kind of a selected file is that of the change that names it first. -/
theorem lookup_firstKinds_collect {exclusion : Exclusion} {changes : List Change} {path : String}
    (normal : ∀ path ∈ (ChangeSet.collect exclusion changes).paths, Path.normalize path = path)
    (there : path ∈ (ChangeSet.collect exclusion changes).paths) :
    ∃ first, ChangeSet.first? changes path = some first ∧
      (Assembly.firstKinds (ChangeSet.collect exclusion changes).changes).lookup path =
        some first.kind := by
  obtain ⟨first, found⟩ := ChangeSet.exists_first? there
  refine ⟨first, found, ?_⟩
  rw [Assembly.lookup_firstKinds, ChangeSet.first?_collect normal there, found]
  rfl

/-- The risks that a selected file poses in an analysis. -/
def Poses (engine : Engine) (changes : List Change) (options : Options)
    (modules : List ScannedModule) (path : String) (risk : Risk) : Prop :=
  ∃ first, ChangeSet.first? changes path = some first ∧
    Assembly.Poses (if options.enhance then engine.parser else none) modules first.kind path risk

/-- The groups of a report have the greatest risks that their files pose. Without a graph every
risk is low. -/
def RatesGroups (engine : Engine) (changes : List Change) (options : Options)
    (report : Report) : Prop :=
  match report.mode with
  | .simple => ∀ group ∈ report.groups, group.risk = .low
  | .complex => ∃ exclusion modules, Exclusion.ofPatterns options.exclude = .ok exclusion ∧
      (engine.source (ChangeSet.collect exclusion changes).paths).answer = .ok modules ∧
      (∀ path, (∃ cycle ∈ report.cycles, path ∈ cycle) ↔
        Relation.TransGen (Assembly.Leads modules) path path) ∧
      ∀ group ∈ report.groups,
        IsGreatest {risk | ∃ path ∈ group.files, engine.Poses changes options modules path risk}
          group.risk

/-- Every analysis that ends with a report rates its groups by what their files pose. -/
theorem ratesGroups_of_analyze (engine : Engine) (changes : List Change) (options : Options)
    (report : Report) (c c' : Cancellation) (normal : engine.source.ReportsNormal)
    (finished : (engine.analyze changes options).start c = (.ok report, c')) :
    engine.RatesGroups changes options report := by
  obtain ⟨exclusion, graph, h⟩ := exists_finished finished
  unfold RatesGroups
  cases mode : report.mode with
  | simple =>
      intro group there
      rw [h.groups_eq_form, h.graph_eq_none mode] at there
      rw [Group.risk_of_mem_form there, aggregateRisk]
  | complex =>
      obtain ⟨modules, answer, graph_eq⟩ := h.assembled mode
      have assembled := isNormal_firstKinds_collect h.normal normal answer
      rw [assembled.graph_put] at graph_eq
      rw [h.requested] at answer
      refine ⟨exclusion, modules, h.patterns, answer, ?_, ?_⟩
      · intro path
        rw [← assembled.isInCycle_plainGraph_iff, h.cycles_eq, graph_eq]
        simp [Graph.isInCycle, Graph.mapNodes]
      · intro group there
        rw [h.groups_eq_form, graph_eq] at there
        rw [Group.risk_of_mem_form there, aggregateRisk]
        refine Risk.isGreatest_maximum (engine.Poses changes options modules)
          (Group.files_ne_nil_of_mem_form there) fun path hpath => ?_
        have selected := Group.mem_of_mem_files there hpath
        obtain ⟨first, found, changed⟩ := lookup_firstKinds_collect h.normal selected
        simpa [Poses, found] using assembled.isGreatest_memberRisk changed

/-- A changed surface makes its whole group a high risk, and a file that was deleted first is not
parsed any more. -/
theorem ratesGroups_of_changed_surface :
    let surface : Surface := ⟨[], ["f"], true⟩
    let engine : Engine :=
      ⟨.ofTable [("a.ts", ["b.ts"])], some (.ofTable [("b.ts", surface), ("c.ts", surface)])⟩
    let changes := [.modified "a.ts", .modified "b.ts", .deleted "c.ts", .modified "c.ts"]
    let options := { Options.default with mode := .complex, enhance := true }
    let report : Report := {
      mode := .complex
      groups :=
        [{ id := "group-1", files := ["a.ts", "b.ts"], risk := .high
           rationale := "2 files connected by 1 dependency edges; 1 with public API changes"
           containsCycle := false, order := ["b.ts", "a.ts"] },
          { id := "group-2", files := ["c.ts"], risk := .medium
            rationale := "c.ts has no dependency links to other changed files"
            containsCycle := false, order := ["c.ts"] }]
      totalFiles := 3, elapsedNanos := 0
      warnings :=
        ["enhancement skipped for a.ts: no module surface registered for a.ts",
          "1 high-risk groups detected - review recommended"]
      cycles := [], excluded := [], validation := [] }
    (engine.analyze changes options).start ⟨false, false⟩ = (.ok report, ⟨false, false⟩) ∧
      engine.RatesGroups changes options report := by
  intro surface engine changes options report
  have finished : (engine.analyze changes options).start ⟨false, false⟩ =
      (.ok report, ⟨false, false⟩) := by
    decide +kernel
  exact ⟨finished, ratesGroups_of_analyze engine changes options report _ _
    (EdgeSource.reportsNormal_ofTable _) finished⟩

end Engine

end CommitSplit
