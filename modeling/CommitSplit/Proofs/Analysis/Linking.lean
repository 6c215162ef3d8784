import CommitSplit.Proofs.Analysis.Engine

/-!
# What puts two files into one group

A complex analysis joins two selected files exactly when a chain of selected files leads from one to
the other in which each step was reported by the edge source, in either direction. The reports pass
through the graph and through the labels of its links, and neither loses nor invents a step.
-/

namespace CommitSplit

/-- Two selected files of which one was reported to depend on the other. -/
def LinkedBy (modules : List ScannedModule) (selected : List String) (a b : String) : Prop :=
  (a ∈ selected ∧ b ∈ selected) ∧ (Assembly.Reports modules a b ∨ Assembly.Reports modules b a)

/-- The graph links two changed files exactly when the reports do. -/
theorem linkedIn_buildGraph {kinds : List (String × ChangeKind)} {modules : List ScannedModule}
    (normal : ∀ path ∈ kinds.map Prod.fst, Path.normalize path = path ∧ path ≠ "")
    (fixed : ∀ m ∈ modules, Path.normalize m.path = m.path) (nodes : List Node) :
    Group.LinkedIn (Assembly.buildGraph kinds (Assembly.collectReports modules) nodes)
        (kinds.map Prod.fst) =
      LinkedBy modules (kinds.map Prod.fst) := by
  ext a b
  refine and_congr_right fun ⟨ha, hb⟩ => ?_
  obtain ⟨-, some_a⟩ := normal a ha
  obtain ⟨-, some_b⟩ := normal b hb
  rw [Assembly.mem_dependencies_buildGraph normal fixed some_a,
    Assembly.mem_dependencies_buildGraph normal fixed some_b, and_iff_left some_a,
    and_iff_left some_b]

namespace Engine

/-- Two selected files share a group exactly when a chain of reported dependencies between selected
files joins them. -/
theorem sharesGroup_iff_of_analyze (engine : Engine) (changes : List Change) (options : Options)
    (report : Report) (c c' : Cancellation) (normal : engine.source.ReportsNormal)
    (finished : (engine.analyze changes options).start c = (.ok report, c'))
    (complex : report.mode = .complex) :
    ∃ exclusion modules, Exclusion.ofPatterns options.exclude = .ok exclusion ∧
      let selected := (ChangeSet.collect exclusion changes).paths
      (engine.source selected).answer = .ok modules ∧
        ∀ a ∈ selected, ∀ b ∈ selected,
          (∃ group ∈ report.groups, a ∈ group.files ∧ b ∈ group.files) ↔
            Relation.ReflTransGen (LinkedBy modules selected) a b := by
  obtain ⟨exclusion, graph, h⟩ := exists_finished finished
  obtain ⟨modules, nodes, answer, graph_eq⟩ := h.scanned complex
  have selected_normal : ∀ path ∈ (Assembly.firstKinds
      (ChangeSet.collect exclusion changes).changes).map Prod.fst,
        Path.normalize path = path ∧ path ≠ "" := by
    rw [h.requested]
    exact fun path there => ⟨h.normal path there, ChangeSet.ne_empty_of_mem_paths there⟩
  have fixed := normal _ _ (fun path there => (selected_normal path there).1) answer
  have links := linkedIn_buildGraph selected_normal fixed nodes
  rw [h.requested] at answer links
  refine ⟨exclusion, modules, h.patterns, answer, ?_⟩
  intro a ha b hb
  rw [h.groups_eq_form, graph_eq,
    Group.exists_group_iff (ChangeSet.nodup_paths_collect exclusion changes) ha hb, links]

/-- A dependency joins two files, and a file that did not change joins none. -/
theorem sharesGroup_iff_of_unchanged_target :
    let engine : Engine := ⟨.ofTable [("a", ["b", "lib"]), ("c", ["lib"])], none⟩
    let changes := [.modified "a", .modified "b", .modified "c"]
    let options := { Options.default with mode := .complex }
    let report : Report := {
      mode := .complex
      groups :=
        [{ id := "group-1", files := ["a", "b"], risk := .low
           rationale := "2 files connected by 1 dependency edges"
           containsCycle := false, order := ["b", "a"] },
          { id := "group-2", files := ["c"], risk := .low
            rationale := "c has no dependency links to other changed files"
            containsCycle := false, order := ["c"] }]
      totalFiles := 3, elapsedNanos := 0, warnings := [], cycles := [], excluded := []
      validation := [] }
    (engine.analyze changes options).start ⟨false, false⟩ = (.ok report, ⟨false, false⟩) ∧
      ∃ exclusion modules, Exclusion.ofPatterns options.exclude = .ok exclusion ∧
        let selected := (ChangeSet.collect exclusion changes).paths
        (engine.source selected).answer = .ok modules ∧
          ∀ a ∈ selected, ∀ b ∈ selected,
            (∃ group ∈ report.groups, a ∈ group.files ∧ b ∈ group.files) ↔
              Relation.ReflTransGen (LinkedBy modules selected) a b := by
  intro engine changes options report
  have finished : (engine.analyze changes options).start ⟨false, false⟩ =
      (.ok report, ⟨false, false⟩) := by
    decide +kernel
  exact ⟨finished, sharesGroup_iff_of_analyze engine changes options report _ _
    (EdgeSource.reportsNormal_ofTable _) finished rfl⟩

end Engine

end CommitSplit
