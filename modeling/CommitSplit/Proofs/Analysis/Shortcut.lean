import CommitSplit.Files.Tree
import CommitSplit.Imports.Scanner
import CommitSplit.Proofs.Analysis.Linking
import CommitSplit.Proofs.Analysis.Surfaces
import CommitSplit.Proofs.Graph.Members
import CommitSplit.Proofs.Group.Division

/-!
# Changes without source files

The simple mode is chosen for a few files none of which is a source file. The complex mode would
find the same groups: the scanner reads source files only, so no file is opened and no dependency is
reported, no surface is asked for, and the graph has neither links nor cycles.
-/

namespace CommitSplit

/-! ## Files that are not read -/

/-- The scanner reads source files only. -/
theorem Scanner.isSource_of_reads {language : Language} (read : reads language = true) :
    language.isSource = true := by
  cases language <;> first | rfl | cases read

/-- A scan that reads no file succeeds, whatever the files are. -/
theorem Scanner.scan_of_unread (s : Scanner) {paths : List String}
    (normal : ∀ path ∈ paths, Path.normalize path = path)
    (unread : ∀ path ∈ paths, (Language.ofPath path).isSource = false) :
    s.scan paths = .ok (paths.map fun path => ⟨path, []⟩) := by
  rw [scan, Attempt.mapM_eq_ok_iff, List.forall₂_map_right_iff, List.forall₂_same]
  intro path there
  have closed : reads (Language.ofPath path) = false := by
    rw [Bool.eq_false_iff]
    exact fun read => Bool.eq_false_iff.mp (unread path there) (isSource_of_reads read)
  have nothing : s.dependencies paths path = .ok [] := by
    rw [dependencies, closed]
    rfl
  rw [normal path there]
  exact congrArg (Except.map _) nothing

/-- The scanner reports the paths that it is asked for. -/
theorem Scanner.reportsNormal (s : Scanner) : s.source.ReportsNormal := by
  intro paths modules normal answer m hm
  obtain ⟨path, there, found⟩ := Attempt.exists_of_mem_of_mapM_eq_ok answer hm
  obtain ⟨targets, -, rfl⟩ := Attempt.map_eq_ok_iff.mp found
  dsimp only
  rw [normal path there, normal path there]

theorem NodeKind.ofName_ne_source (name : String) (extension : Option String) :
    ofName name extension ≠ .source := by
  unfold ofName
  split
  · nofun
  · split
    · nofun
    · split <;> nofun

/-- Only a file in a source language has a node of a source file. -/
theorem NodeKind.isSource_of_ofPath {path : String} (source : ofPath path = .source) :
    (Language.ofPath path).isSource = true := by
  unfold ofPath at source
  split at source
  case h_7 =>
    split at source
    · assumption
    · exact absurd source (ofName_ne_source _ _)
  all_goals cases source

/-- Changes for which the simple mode is chosen are not to source files. -/
theorem isSource_of_selectMode {maxSimpleFiles : Nat} {changes : List Change}
    (simple : selectMode maxSimpleFiles changes .auto = .simple) :
    ∀ path ∈ changes.map Change.path, (Language.ofPath path).isSource = false := by
  intro path there
  have none_is : ((FirstSeen.of (changes.map Change.path)).any fun path =>
      (Language.ofPath path).isSource) = false := by
    simp only [selectMode] at simple
    split at simple
    · cases simple
    · split at simple
      · cases simple
      · exact Bool.eq_false_iff.mpr ‹_›
  exact Bool.eq_false_iff.mpr (List.any_eq_false.mp none_is path (FirstSeen.mem_of.mpr there))

/-! ## Reports without dependencies -/

theorem Graph.orderWithin_singleton (g : Graph) (path : String) :
    (g.orderWithin [path]).getD [path] = [path] := by
  cases ordered : g.orderWithin [path] with
  | none => rfl
  | some order =>
      exact List.perm_singleton.mp (perm_of_orderWithin (List.nodup_singleton path) ordered)

/-- Files without dependencies on each other have a group of their own each. -/
theorem Group.partsOf_of_unlinked {g : Graph} {paths : List String} (nodup : paths.Nodup)
    (apart : ∀ a b, ¬LinkedIn g paths a b) : partsOf (some g) paths = partsOf none paths := by
  refine (divides_partsOf (some g) paths).eq_of_together (divides_partsOf none paths) nodup
    fun a ha b hb => ?_
  rw [exists_part_iff nodup ha hb, Relation.reflTransGen_iff_eq (apart a)]
  simp only [partsOf, List.mem_map, exists_exists_and_eq_and, List.mem_singleton]
  constructor
  · rintro rfl
    exact ⟨b, hb, rfl, rfl⟩
  · rintro ⟨path, -, rfl, rfl⟩
    rfl

theorem Group.raises_alone {g : Graph} {path : String} (acyclic : g.isInCycle path = false)
    (i : Nat) : Raises (linked g i [path]) (alone i path) where
  id_eq := rfl
  files_eq := rfl
  containsCycle_eq := by simp [linked, alone, acyclic]
  order_eq := Graph.orderWithin_singleton g path
  risk_le := Risk.low_le _

/-- The groups of a graph without links and cycles are those of no graph, but for their risk. -/
theorem Group.raises_form_of_unlinked {g : Graph} {paths : List String} (nodup : paths.Nodup)
    (apart : ∀ a b, ¬LinkedIn g paths a b) (acyclic : ∀ path, g.isInCycle path = false) :
    List.Forall₂ Raises (form (some g) paths) (form none paths) := by
  have parts : Digraph.blocks paths (linksBetween g paths) = paths.map fun path => [path] :=
    partsOf_of_unlinked nodup apart
  rw [form, form, parts, List.zipIdx_map, List.map_map, List.forall₂_map_left_iff,
    List.forall₂_map_right_iff]
  exact List.forall₂_same.mpr fun place _ => raises_alone (acyclic place.1) place.2

theorem Group.containsCycle_of_raises {raised plain : List Group}
    (raises : List.Forall₂ Raises raised plain)
    (acyclic : ∀ group ∈ plain, group.containsCycle = false) :
    ∀ group ∈ raised, group.containsCycle = false := by
  induction raises with
  | nil => exact acyclic
  | cons first _ ih =>
      obtain ⟨calm, rest⟩ := List.forall_mem_cons.mp acyclic
      exact List.forall_mem_cons.mpr ⟨first.containsCycle_eq.trans calm, ih rest⟩

namespace Assembly

variable {kinds : List (String × ChangeKind)} {modules : List ScannedModule}

theorem not_reports_of_bare (bare : ∀ m ∈ modules, m.dependencies = []) (a b : String) :
    ¬Reports modules a b := by
  rintro ⟨m, hm, -, target, listed, -⟩
  rw [bare m hm] at listed
  cases listed

/-- Files for which no dependency is reported are grouped as if there were no graph. -/
theorem IsNormal.raises_form_of_bare (h : IsNormal kinds modules)
    (bare : ∀ m ∈ modules, m.dependencies = []) (parser : Option SurfaceParser) :
    let assembly := put kinds modules
      (enhancements parser kinds (plainNodes kinds (collectReports modules)))
    List.Forall₂ Group.Raises (Group.form (some assembly.graph) (kinds.map Prod.fst))
      (Group.form none (kinds.map Prod.fst)) := by
  intro assembly
  refine Group.raises_form_of_unlinked h.distinct (fun a b linked => ?_) fun path => ?_
  · have same := linkedIn_buildGraph h.normal h.fixed
      ((enhancements parser kinds (plainNodes kinds (collectReports modules))).map Prod.fst)
    have linked : LinkedBy modules (kinds.map Prod.fst) a b := same ▸ linked
    exact linked.2.elim (not_reports_of_bare bare a b) (not_reports_of_bare bare b a)
  · have same : assembly.graph.isInCycle path = (plainGraph kinds modules).isInCycle path := by
      rw [h.graph_put]
      rfl
    rw [same, Bool.eq_false_iff, Ne, h.isInCycle_plainGraph_iff]
    intro cycle
    cases cycle with
    | single step => exact not_reports_of_bare bare _ _ step.2
    | tail _ step => exact not_reports_of_bare bare _ _ step.2

theorem kind_of_mem_plainNodes {reports : List (String × List String)} {node : Node}
    (there : node ∈ plainNodes kinds reports) : node.kind = NodeKind.ofPath node.path := by
  have of_path (path : String) (change : ChangeKind) :
      (Node.ofChangeKind path change).kind =
        NodeKind.ofPath (Node.ofChangeKind path change).path := by
    simp only [Node.ofChangeKind]
  rcases List.mem_append.mp there with changed | other
  · obtain ⟨_, -, same⟩ := List.mem_map.mp changed
    exact same ▸ of_path _ _
  · obtain ⟨_, -, same⟩ := List.mem_map.mp other
    exact same ▸ of_path _ _

/-- No surface is asked for when no node is a source file. -/
theorem IsNormal.anyCancels_of_noSource (h : IsNormal kinds modules)
    (unread : ∀ path ∈ nodePaths kinds modules, (Language.ofPath path).isSource = false)
    (parser : Option SurfaceParser) :
    anyCancels parser kinds (plainNodes kinds (collectReports modules)) = false := by
  cases parser with
  | none => rfl
  | some parser =>
      rw [anyCancels, List.any_eq_false]
      intro node hnode
      have there : node.path ∈ nodePaths kinds modules :=
        h.map_path_plainNodes ▸ List.mem_map_of_mem hnode
      have not_source : node.kind ≠ .source := by
        rw [kind_of_mem_plainNodes hnode]
        exact fun source =>
          Bool.eq_false_iff.mp (unread _ there) (NodeKind.isSource_of_ofPath source)
      simp [isEligible, SurfaceParser.canEnhance, not_source]

end Assembly

namespace Engine

variable {exclusion : Exclusion} {changes : List Change} {options : Options} {c : Cancellation}

/-- Without source files an assembly succeeds, opens no file and asks for no surface. -/
theorem assemble_unread (files : Files) (root : String) (parser : Option SurfaceParser)
    (enhance : Bool) (calm : c.stops = false)
    (normal : ∀ path ∈ (ChangeSet.collect exclusion changes).paths, Path.normalize path = path)
    (unread : ∀ path ∈ (ChangeSet.collect exclusion changes).paths,
      (Language.ofPath path).isSource = false) :
    let set := ChangeSet.collect exclusion changes
    let kinds := Assembly.firstKinds set.changes
    ∃ modules, (∀ m ∈ modules, m.dependencies = []) ∧ Assembly.IsNormal kinds modules ∧
      (assemble (Scanner.mk files root).source parser set.changes enhance).start c =
        (.ok (Assembly.put kinds modules
          (Assembly.enhancements (if enhance then parser else none) kinds
            (Assembly.plainNodes kinds (Assembly.collectReports modules)))), c) := by
  intro set kinds
  let modules : List ScannedModule := set.paths.map fun path => ⟨path, []⟩
  have requested : kinds.map Prod.fst = set.paths := map_fst_firstKinds_collect normal
  have answer : ((Scanner.mk files root).source (kinds.map Prod.fst)).answer = .ok modules := by
    rw [requested]
    exact (Scanner.mk files root).scan_of_unread normal unread
  have assembled : Assembly.IsNormal kinds modules :=
    isNormal_firstKinds_collect normal (Scanner.reportsNormal _) answer
  have no_source : ∀ path ∈ Assembly.nodePaths kinds modules,
      (Language.ofPath path).isSource = false := by
    intro path there
    rcases List.mem_append.mp (Assembly.mem_nodePaths.mp there) with changed | reported
    · exact unread path (requested ▸ changed)
    · obtain ⟨⟨m, hm, same⟩, -⟩ := Assembly.mem_map_fst_collectReports.mp reported
      obtain ⟨path', there', rfl⟩ := List.mem_map.mp hm
      rw [← same, normal path' there']
      exact unread path' there'
  have flag : c = c.after (((Scanner.mk files root).source (kinds.map Prod.fst)).cancels ||
      Assembly.anyCancels (if enhance then parser else none) kinds
        (Assembly.plainNodes kinds (Assembly.collectReports modules))) := by
    rw [assembled.anyCancels_of_noSource no_source]
    exact (Cancellation.after_false c).symm
  have bare : ∀ m ∈ modules, m.dependencies = [] := by
    intro m hm
    obtain ⟨path, -, rfl⟩ := List.mem_map.mp hm
    rfl
  exact ⟨modules, bare, assembled,
    assemble_eq_ok_iff.mpr ⟨modules, answer, ⟨calm, flag, calm⟩, rfl⟩⟩

/-- Without source files the graph stage ends in both modes, with the same groups. -/
theorem graphFor_unread (files : Files) (root : String) (parser : Option SurfaceParser)
    (mode : Mode) (options : Options) (calm : c.stops = false)
    (normal : ∀ path ∈ (ChangeSet.collect exclusion changes).paths, Path.normalize path = path)
    (unread : ∀ path ∈ (ChangeSet.collect exclusion changes).paths,
      (Language.ofPath path).isSource = false) :
    let set := ChangeSet.collect exclusion changes
    ∃ graph warnings,
      (graphFor ⟨(Scanner.mk files root).source, parser⟩ mode set.changes options).start c =
          (.ok (graph, warnings), c) ∧
        List.Forall₂ Group.Raises (Group.form graph set.paths) (Group.form none set.paths) := by
  intro set
  cases mode with
  | simple => exact ⟨none, [], rfl, List.forall₂_same.mpr fun group _ => .refl group⟩
  | complex =>
      obtain ⟨modules, bare, assembled, ended⟩ :=
        assemble_unread files root parser options.enhance calm normal unread
      refine ⟨_, _, Run.start_bind_eq_ok_iff.mpr ⟨_, _, ended, rfl⟩, ?_⟩
      rw [← map_fst_firstKinds_collect normal]
      exact assembled.raises_form_of_bare bare _

/-- Where the simple mode is chosen, the complex mode ends as well, with the same groups in the same
order: a few changes without a source file do not need a graph. -/
theorem analyze_complex_of_simple (files : Files) (root : String) (parser : Option SurfaceParser)
    (changes : List Change) (options : Options) (exclusion : Exclusion) (c : Cancellation)
    (normal : ∀ change ∈ changes, Path.normalize change.path = change.path)
    (auto : options.mode = .auto)
    (patterns : Exclusion.ofPatterns options.exclude = .ok exclusion)
    (simple : selectMode options.maxSimpleFiles (ChangeSet.collect exclusion changes).changes
      options.mode = .simple)
    (calm : c.stops = false) :
    let engine : Engine := ⟨(Scanner.mk files root).source, parser⟩
    ∃ plain full,
      (engine.analyze changes options).start c = (.ok plain, c) ∧
        (engine.analyze changes { options with mode := .complex }).start c = (.ok full, c) ∧
        plain.mode = .simple ∧
        ((ChangeSet.collect exclusion changes).changes ≠ [] → full.mode = .complex) ∧
        List.Forall₂ Group.Raises full.groups plain.groups ∧
        ∀ group ∈ full.groups ++ plain.groups, group.containsCycle = false := by
  intro engine
  let set := ChangeSet.collect exclusion changes
  let forced := { options with mode := .complex }
  rw [auto] at simple
  have selected_normal : ∀ path ∈ set.paths, Path.normalize path = path := by
    intro path there
    obtain ⟨⟨change, hchange, rfl⟩, -⟩ :=
      ChangeSet.mem_inputs.mp (ChangeSet.mem_paths_collect.mp there).1
    rw [normal change hchange, normal change hchange]
  have plain_mode : modeFor set options = .simple := by
    rw [modeFor, auto, simple, ite_self]
  have plain_graphed : (engine.graphFor (modeFor set options) set.changes options).start c =
      (.ok (none, []), c) := by
    rw [plain_mode]
    rfl
  obtain ⟨graph, warnings, graphed, raises⟩ := graphFor_unread files root parser
    (modeFor set forced) forced calm selected_normal (isSource_of_selectMode simple)
  have acyclic : ∀ group ∈ Group.form none set.paths, group.containsCycle = false := by
    intro group hgroup
    obtain ⟨_, -, rfl⟩ := List.mem_map.mp hgroup
    rfl
  refine ⟨reportOf set options none [], reportOf set forced graph warnings, ?_, ?_, plain_mode,
    fun some_change => if_neg some_change, raises, ?_⟩
  · exact analyze_eq_ok_iff.mpr
      ⟨exclusion, patterns, selected_normal, none, [], ⟨calm, plain_graphed, calm⟩, rfl⟩
  · exact analyze_eq_ok_iff.mpr
      ⟨exclusion, patterns, selected_normal, graph, warnings, ⟨calm, graphed, calm⟩, rfl⟩
  · exact List.forall_mem_append.mpr ⟨Group.containsCycle_of_raises raises acyclic, acyclic⟩

/-- The content of a document is not looked at. -/
theorem analyze_complex_of_unreadable_document :
    let files := (FileTree.ofList [("README.md", some [255])]).files
    let engine : Engine := ⟨(Scanner.mk files "").source, none⟩
    let changes : List Change := [.modified "README.md", .added "package.json"]
    let c : Cancellation := ⟨true, false⟩
    let group := fun (id path : String) (risk : Risk) (reason : String) =>
      ({ id, files := [path], risk, rationale := path ++ reason, containsCycle := false
         order := [path] } : Group)
    let report := fun (mode : Mode) (groups : List Group) =>
      ({ mode, groups, totalFiles := 2, elapsedNanos := 0, warnings := [], cycles := []
         excluded := [], validation := [] } : Report)
    let unknown := " analyzed without a dependency graph"
    let unlinked := " has no dependency links to other changed files"
    let plain := report .simple
      [group "group-1" "README.md" .low unknown, group "group-2" "package.json" .low unknown]
    let full := report .complex
      [group "group-1" "README.md" .low unlinked, group "group-2" "package.json" .medium unlinked]
    (engine.analyze changes .default).start c = (.ok plain, c) ∧
      (engine.analyze changes { Options.default with mode := .complex }).start c = (.ok full, c) ∧
      List.Forall₂ Group.Raises full.groups plain.groups := by
  intro files engine changes c group report unknown unlinked plain full
  have simple_run : (engine.analyze changes .default).start c = (.ok plain, c) := by
    decide +kernel
  have complex_run : (engine.analyze changes { Options.default with mode := .complex }).start c =
      (.ok full, c) := by decide +kernel
  obtain ⟨plain', full', simple_run', complex_run', -, -, raises, -⟩ :=
    analyze_complex_of_simple files "" none changes .default .empty c (by decide +kernel) rfl rfl
      (by decide +kernel) rfl
  cases simple_run.symm.trans simple_run'
  cases complex_run.symm.trans complex_run'
  exact ⟨simple_run, complex_run, raises⟩

end Engine

end CommitSplit
