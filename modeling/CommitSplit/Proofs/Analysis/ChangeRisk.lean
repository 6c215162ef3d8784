import CommitSplit.Proofs.Analysis.Risk

/-!
# What a change counts for in the groups of a given graph

Groups of changes are rated by a graph that was built before: a member has the risk of its node, or
that of a new node if it has none. What the changes say about themselves is not heard. So a source
file that was deleted raises the risk of its group only if the graph recorded that deletion, or if
something else in the group is as bad.
-/

namespace CommitSplit

namespace Node

/-- The nodes that are made from a path or from a change. -/
inductive IsMade : Node → Prop
  | new (path : String) : IsMade (Node.new path)
  | ofChange (change : Change) : IsMade (Node.ofChange change)

theorem medium_le_baselineRisk_iff {kind : NodeKind} {change : ChangeKind} :
    .medium ≤ baselineRisk kind change ↔ kind = .config ∨ kind = .source ∧ change = .deleted := by
  cases kind <;> cases change <;> decide

theorem medium_le_risk_ofChange_iff {path : String} {change : Change}
    (names : Path.normalize change.path = path) :
    .medium ≤ (Node.ofChange change).risk ↔
      NodeKind.ofPath path = .config ∨ NodeKind.ofPath path = .source ∧ change.kind = .deleted := by
  subst names
  rw [Node.ofChange, ofChangeKind, medium_le_baselineRisk_iff]

theorem medium_le_risk_new_iff {path : String} :
    .medium ≤ (Node.new path).risk ↔ NodeKind.ofPath (Path.normalize path) = .config := by
  rw [Node.new, ofChangeKind, medium_le_baselineRisk_iff]
  simp

namespace IsMade

variable {node : Node}

/-- Such a node is a medium risk when it is configuration, or was made from a change that deletes a
source file. -/
theorem medium_le_risk_iff (made : node.IsMade) :
    .medium ≤ node.risk ↔ NodeKind.ofPath node.path = .config ∨ ∃ change : Change,
      node = Node.ofChange change ∧ change.kind = .deleted ∧
        NodeKind.ofPath node.path = .source := by
  constructor
  · intro risky
    cases made with
    | new path => exact .inl (medium_le_risk_new_iff.mp risky)
    | ofChange change =>
        rcases (medium_le_risk_ofChange_iff rfl).mp risky with config | ⟨source, deleted⟩
        · exact .inl config
        · exact .inr ⟨change, rfl, deleted, source⟩
  · rintro (config | ⟨change, rfl, deleted, source⟩)
    · cases made with
      | new path => exact medium_le_risk_new_iff.mpr config
      | ofChange change => exact (medium_le_risk_ofChange_iff rfl).mpr (.inl config)
    · exact (medium_le_risk_ofChange_iff rfl).mpr (.inr ⟨source, deleted⟩)

theorem risk_ne_high (made : node.IsMade) : node.risk ≠ .high := by
  cases made with
  | new path => exact risk_ofChangeKind_ne_high path .modified
  | ofChange change => exact risk_ofChangeKind_ne_high change.path change.kind

end IsMade

end Node

namespace Graph

/-- Every node is made from a path or from a change. -/
def IsMade (g : Graph) : Prop :=
  ∀ node ∈ nodesOf g.entries, node.IsMade

namespace Draft

theorem mem_nodesOf_insert {d : Draft} {node other : Node}
    (h : other ∈ nodesOf (d.insert node).entries) : other ∈ nodesOf d.entries ∨ other = node := by
  cases found : position? d.entries node.path with
  | none =>
      rw [nodesOf_insert (position?_eq_none_iff.mp found)] at h
      simpa using h
  | some i =>
      rw [nodesOf_insert_of_position? found] at h
      exact List.mem_or_eq_of_mem_set h

/-- If the nodes that are inserted by name are made, then all nodes are. -/
theorem isMade_build {operations : List Operation}
    (made : ∀ node, .insert node ∈ operations → node.IsMade) :
    (ofOperations operations).build.IsMade := by
  refine ofOperations_induction_of (P := fun d => ∀ node ∈ nodesOf d.entries, node.IsMade)
    (List.forall_mem_nil _) Node.IsMade.new ?_ ?_ operations made
  · intro d node made_node made_others other there
    rcases mem_nodesOf_insert there with old | rfl
    · exact made_others other old
    · exact made_node
  · intro d i target _ made_others
    rwa [nodesOf_addTarget]

end Draft

/-- The reasons for which a graph rates a file higher than low. -/
inductive Alarms (g : Graph) (path : String) : Prop
  | cycle : Relation.TransGen g.Depends path path → Alarms g path
  | config : path ∈ g.paths → NodeKind.ofPath path = .config → Alarms g path
  /-- The path of a file without a node is normalized once more. -/
  | unknown : path ∉ g.paths → NodeKind.ofPath (Path.normalize path) = .config → Alarms g path
  /-- The node was made from a change that deletes a source file. -/
  | deleted {change : Change} : g.node? path = some (Node.ofChange change) →
      change.kind = .deleted → NodeKind.ofPath path = .source → Alarms g path

variable {g : Graph} {path : String}

theorem node?_eq_none_iff : g.node? path = none ↔ path ∉ g.paths := by
  simp [node?, entry?, paths]

theorem mem_paths_of_node? {node : Node} (found : g.node? path = some node) : path ∈ g.paths := by
  by_contra unknown
  rw [node?_eq_none_iff.mpr unknown] at found
  cases found

namespace WellFormed

theorem high_le_memberRisk_iff (h : g.WellFormed) (made : g.IsMade) :
    .high ≤ g.memberRisk path ↔ Relation.TransGen g.Depends path path := by
  rw [← h.isInCycle_iff, memberRisk]
  split
  · rename_i cyclic
    exact iff_of_true le_rfl cyclic
  · rename_i acyclic
    refine iff_of_false (fun high => ?_) acyclic
    cases found : g.node? path with
    | none =>
        rw [found] at high
        exact Node.risk_ofChangeKind_ne_high path .modified (le_antisymm (Risk.le_high _) high)
    | some node =>
        rw [found] at high
        have there := ((node?_eq_some_iff h.distinct).mp found).1
        exact (made node there).risk_ne_high (le_antisymm (Risk.le_high _) high)

/-- A file is rated higher than low for one of these reasons only. -/
theorem medium_le_memberRisk_iff (h : g.WellFormed) (made : g.IsMade) :
    .medium ≤ g.memberRisk path ↔ g.Alarms path := by
  by_cases cyclic : g.isInCycle path = true
  · rw [memberRisk, if_pos cyclic]
    exact iff_of_true (Risk.le_high _) (.cycle (h.isInCycle_iff.mp cyclic))
  · rw [memberRisk, if_neg cyclic]
    have acyclic := mt h.isInCycle_iff.mpr cyclic
    cases found : g.node? path with
    | none =>
        have unknown := node?_eq_none_iff.mp found
        simp only [Node.medium_le_risk_new_iff]
        refine ⟨.unknown unknown, fun alarms => ?_⟩
        cases alarms with
        | cycle walk => exact absurd walk acyclic
        | config known _ => exact absurd known unknown
        | unknown _ config => exact config
        | deleted recorded _ _ => simp [found] at recorded
    | some node =>
        obtain ⟨there, rfl⟩ := (node?_eq_some_iff h.distinct).mp found
        have known := mem_paths_of_node? found
        simp only [(made node there).medium_le_risk_iff]
        constructor
        · rintro (config | ⟨change, same, deleted, source⟩)
          · exact .config known config
          · exact .deleted (same ▸ found) deleted source
        · intro alarms
          cases alarms with
          | cycle walk => exact absurd walk acyclic
          | config _ config => exact .inl config
          | unknown unknown _ => exact absurd known unknown
          | @deleted change recorded deleted source =>
              exact .inr ⟨change, Option.some_inj.mp (found.symm.trans recorded), deleted, source⟩

end WellFormed

end Graph

namespace Group

/-- How the risk of a group compares to what its changes say by themselves. -/
structure RatesChanges (g : Graph) (changes : List Change) (group : Group) : Prop where
  /-- Every member has a first change. -/
  named : ∀ path ∈ group.files, ∃ first, ChangeSet.first? changes path = some first
  high_iff : group.risk = .high ↔ ∃ path ∈ group.files, Relation.TransGen g.Depends path path
  medium_le_iff : .medium ≤ group.risk ↔ ∃ path ∈ group.files, g.Alarms path
  /-- A member whose own change is more than a low risk is covered by what the graph knows about
  the group. -/
  covers_iff : ∀ path ∈ group.files, ∀ first, ChangeSet.first? changes path = some first →
    ((Node.ofChange first).risk ≤ group.risk ↔
      (Node.ofChange first).risk = .low ∨ ∃ member ∈ group.files, g.Alarms member)
  /-- A change that the graph recorded counts in full. -/
  covers_recorded : ∀ path ∈ group.files, ∀ first, ChangeSet.first? changes path = some first →
    g.node? path = some (Node.ofChange first) → (Node.ofChange first).risk ≤ group.risk
  /-- So does every change but the deletion of a source file, if the path is normal or known. -/
  covers_kept : ∀ path ∈ group.files, ∀ first, ChangeSet.first? changes path = some first →
    (Path.normalize path = path ∨ path ∈ g.paths) →
      ¬(first.kind = .deleted ∧ NodeKind.ofPath path = .source) →
        (Node.ofChange first).risk ≤ group.risk

variable {g : Graph} {paths : List String} {changes : List Change} {group : Group} {risk : Risk}

/-- A group reaches a risk when a member does. -/
theorem le_risk_iff_of_mem_form (h : group ∈ form (some g) paths) :
    risk ≤ group.risk ↔ ∃ path ∈ group.files, risk ≤ g.memberRisk path := by
  have some_level : group.files.map g.memberRisk ≠ [] := by
    simpa using files_ne_nil_of_mem_form h
  rw [risk_of_mem_form h, aggregateRisk, Risk.le_maximum_iff some_level]
  simp only [List.mem_map, exists_exists_and_eq_and]

theorem medium_le_risk_iff_of_mem_form (built : g.WellFormed) (made : g.IsMade)
    (h : group ∈ form (some g) paths) :
    .medium ≤ group.risk ↔ ∃ path ∈ group.files, g.Alarms path := by
  rw [le_risk_iff_of_mem_form h]
  exact exists_congr fun path => and_congr_right fun _ => built.medium_le_memberRisk_iff made

/-- A change is covered if it is a low risk, or if something raises an alarm. -/
theorem risk_ofChange_le_iff_of_mem_form (built : g.WellFormed) (made : g.IsMade)
    (h : group ∈ form (some g) paths) (change : Change) :
    (Node.ofChange change).risk ≤ group.risk ↔
      (Node.ofChange change).risk = .low ∨ ∃ path ∈ group.files, g.Alarms path := by
  rw [← medium_le_risk_iff_of_mem_form built made h]
  exact Risk.le_iff_of_ne_high (Node.risk_ofChangeKind_ne_high change.path change.kind)

/-- So it is enough that its own file raises one if the change is more than a low risk. -/
theorem risk_ofChange_le_of_mem_form (built : g.WellFormed) (made : g.IsMade)
    (h : group ∈ form (some g) paths) {path : String} {change : Change}
    (there : path ∈ group.files)
    (alarms : .medium ≤ (Node.ofChange change).risk → g.Alarms path) :
    (Node.ofChange change).risk ≤ group.risk := by
  rw [risk_ofChange_le_iff_of_mem_form built made h]
  rcases (Risk.le_iff_of_ne_high (Node.risk_ofChangeKind_ne_high change.path change.kind)).mp
    le_rfl with low | risky
  · exact .inl low
  · exact .inr ⟨path, there, alarms risky⟩

/-- The groups that are formed with a graph of made nodes are rated like this. -/
theorem ratesChanges_of_mem_form (built : g.WellFormed) (made : g.IsMade) {exclusion : Exclusion}
    (h : group ∈ form (some g) (ChangeSet.collect exclusion changes).paths) :
    group.RatesChanges g changes where
  named path there := ChangeSet.exists_first? (mem_of_mem_files h there)
  high_iff := by
    rw [← (Risk.le_high group.risk).ge_iff_eq, le_risk_iff_of_mem_form h]
    exact exists_congr fun path => and_congr_right fun _ => built.high_le_memberRisk_iff made
  medium_le_iff := medium_le_risk_iff_of_mem_form built made h
  covers_iff _ _ first _ := risk_ofChange_le_iff_of_mem_form built made h first
  covers_recorded path there first named recorded := by
    have names := ChangeSet.normalize_of_first? named
    refine risk_ofChange_le_of_mem_form built made h there fun risky => ?_
    rcases (Node.medium_le_risk_ofChange_iff names).mp risky with config | ⟨source, deleted⟩
    · exact .config (Graph.mem_paths_of_node? recorded) config
    · exact .deleted recorded deleted source
  covers_kept path there first named found kept := by
    have names := ChangeSet.normalize_of_first? named
    refine risk_ofChange_le_of_mem_form built made h there fun risky => ?_
    rcases (Node.medium_le_risk_ofChange_iff names).mp risky with config | ⟨source, deleted⟩
    · by_cases known : path ∈ g.paths
      · exact .config known config
      · have normal := found.resolve_right known
        exact .unknown known (normal.symm ▸ config)
    · exact absurd ⟨deleted, source⟩ kept

end Group

namespace Engine

/-- The groups of changes by a graph that was built from made nodes cover what the changes say by
themselves exactly when the graph knows something as bad about the group. Only the deletion of a
source file can be left out, or a path that is not normal yet. -/
theorem ratesChanges_of_groupChanges (changes : List Change)
    (operations : List Graph.Draft.Operation) (options : Options) (groups : List Group)
    (made : ∀ node, Graph.Draft.Operation.insert node ∈ operations → node.IsMade)
    (grouped : groupChanges changes (Graph.Draft.ofOperations operations).build options =
      .ok groups) :
    ∀ group ∈ groups, group.RatesChanges (Graph.Draft.ofOperations operations).build changes := by
  obtain ⟨exclusion, -, grouped⟩ := Attempt.bind_eq_ok_iff.mp grouped
  obtain ⟨_, -, ⟨⟩⟩ := Attempt.bind_eq_ok_iff.mp grouped
  exact fun group h => Group.ratesChanges_of_mem_form (Graph.Draft.wellFormed_build operations)
    (Graph.Draft.isMade_build made) h

/-- A deletion that the graph recorded makes its group a medium risk, and one that it did not record
counts where a file beside it is configuration. -/
theorem ratesChanges_of_recorded_deletion :
    let operations : List Graph.Draft.Operation :=
      [.insert (.ofChange (.deleted "gone.ts")), .addDependency "use.ts" "gone.ts",
        .addDependency "old.ts" "app.toml", .insert (.new "app.toml")]
    let changes := [.modified "use.ts", .deleted "gone.ts", .deleted "old.ts", .modified "app.toml"]
    let g := (Graph.Draft.ofOperations operations).build
    let groups : List Group :=
      [{ id := "group-1", files := ["use.ts", "gone.ts"], risk := .medium
         rationale := "2 files connected by 1 dependency edges"
         containsCycle := false, order := ["gone.ts", "use.ts"] },
        { id := "group-2", files := ["old.ts", "app.toml"], risk := .medium
          rationale := "2 files connected by 1 dependency edges"
          containsCycle := false, order := ["app.toml", "old.ts"] }]
    (∀ node, Graph.Draft.Operation.insert node ∈ operations → node.IsMade) ∧
      groupChanges changes g .default = .ok groups ∧
        ∀ group ∈ groups, group.RatesChanges g changes := by
  intro operations changes g groups
  have made : ∀ node, Graph.Draft.Operation.insert node ∈ operations → node.IsMade := by
    intro node there
    simp only [operations, List.mem_cons, Graph.Draft.Operation.insert.injEq, reduceCtorEq,
      List.not_mem_nil, false_or, or_false] at there
    rcases there with rfl | rfl
    · exact .ofChange _
    · exact .new _
  have grouped : groupChanges changes g .default = .ok groups := by decide +kernel
  refine ⟨made, grouped, ?_⟩
  exact ratesChanges_of_groupChanges changes operations .default groups made grouped

/-- A source file that was deleted is a low risk if the graph does not know it, or knows it without
its change. -/
theorem deletion_rated_low :
    let unknown := (Graph.Draft.ofOperations []).build
    let known := (Graph.Draft.ofOperations [.insert (.new "a.ts")]).build
    let change := Change.deleted "a.ts"
    let group : Group :=
      { id := "group-1", files := ["a.ts"], risk := .low
        rationale := "a.ts has no dependency links to other changed files"
        containsCycle := false, order := ["a.ts"] }
    (Node.ofChange change).risk = .medium ∧
      groupChanges [change] unknown .default = .ok [group] ∧
        groupChanges [change] known .default = .ok [group] := by
  decide +kernel

end Engine

end CommitSplit
