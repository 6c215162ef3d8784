import CommitSplit.Proofs.Analysis.Engine
import CommitSplit.Proofs.Graph.Attachment
import CommitSplit.Proofs.Graph.Order

/-!
# The paths of a requested graph

A graph can be asked for by paths alone, without a selection of changes in front of it. Its nodes
are made first, one for each requested path and one for each other path that was reported, and they
are all that there will be: whatever the sources of the dependencies are, each has a node, or the
node that is made for it takes the place of one. Nobody looks at the requested paths before, so a
path whose normal form is empty has a node like any other.
-/

namespace CommitSplit

namespace Graph

/-- A dependency of the source needs no new path: the source is among the paths, or the path of the
node that is made for it is. -/
def Covers (paths : List String) (source : String) : Prop :=
  Path.normalize source ∈ paths ∨ Path.normalize (Path.normalize source) ∈ paths

namespace Draft

variable {source : String}

theorem pathsOf_foldl_insert (d : Draft) (nodes : List Node) :
    pathsOf (nodes.foldl insert d).entries =
      (nodes.map Node.path).foldl FirstSeen.add (pathsOf d.entries) := by
  induction nodes generalizing d with
  | nil => rfl
  | cons node nodes ih =>
      rw [List.foldl_cons, ih, pathsOf_insert]
      rfl

theorem pathsOf_addDependency_of_covers {d : Draft} (covered : Covers (pathsOf d.entries) source)
    (target : String) : pathsOf (d.addDependency source target).entries = pathsOf d.entries := by
  by_cases known : Path.normalize source ∈ pathsOf d.entries
  · exact pathsOf_addDependency known
  · have taken := covered.resolve_left known
    by_cases some_path : Path.normalize source ≠ "" ∧ Path.normalize target ≠ ""
    · rw [pathsOf_addDependency_of_notMem some_path.1 some_path.2 known, FirstSeen.add,
        if_pos taken]
    · rw [not_and_or, not_not, not_not] at some_path
      rw [addDependency]
      dsimp only
      rw [if_pos some_path]

theorem pathsOf_addDependencies_of_covers {d : Draft}
    (covered : Covers (pathsOf d.entries) source) (targets : List String) :
    pathsOf (d.addDependencies source targets).entries = pathsOf d.entries := by
  induction targets generalizing d with
  | nil => rfl
  | cons target targets ih =>
      have first := pathsOf_addDependency_of_covers covered target
      rw [addDependencies_cons, ih (by rwa [first]), first]

theorem pathsOf_foldl_addDependencies {d : Draft} {sources : List String}
    (covered : ∀ source ∈ sources, Covers (pathsOf d.entries) source)
    (targets : String → List String) :
    pathsOf (sources.foldl (fun d source => d.addDependencies source (targets source)) d).entries =
      pathsOf d.entries := by
  induction sources generalizing d with
  | nil => rfl
  | cons source sources ih =>
      obtain ⟨covered_first, covered⟩ := List.forall_mem_cons.mp covered
      have first := pathsOf_addDependencies_of_covers covered_first (targets source)
      rw [List.foldl_cons, ih (by rwa [first]), first]

end Draft

end Graph

namespace Assembly

variable {kinds : List (String × ChangeKind)} {reports : List (String × List String)}
  {nodes : List Node}

/-- Nodes that cover all sources are the nodes of the graph, as far as paths go. -/
theorem paths_buildGraph (covered : ∀ path ∈ kinds.map Prod.fst ++ reports.map Prod.fst,
      Graph.Covers (nodes.map Node.path) path) :
    (buildGraph kinds reports nodes).paths = FirstSeen.of (nodes.map Node.path) := by
  have inserted : Graph.pathsOf (nodes.foldl Graph.Draft.insert .empty).entries =
      FirstSeen.of (nodes.map Node.path) :=
    Graph.Draft.pathsOf_foldl_insert .empty nodes
  rw [Graph.paths_eq, ← inserted]
  refine Graph.Draft.pathsOf_foldl_addDependencies (fun path there => ?_) _
  rw [inserted, Graph.Covers, FirstSeen.mem_of, FirstSeen.mem_of]
  exact covered path there

/-- The nodes before any surface is known cover all sources. -/
theorem covers_plainNodes {path : String}
    (there : path ∈ kinds.map Prod.fst ++ reports.map Prod.fst) :
    Graph.Covers ((plainNodes kinds reports).map Node.path) path := by
  rw [map_path_plainNodes]
  by_cases changed : path ∈ kinds.map Prod.fst
  · exact .inr (List.mem_append_left _ (List.mem_map_of_mem changed))
  · have reported := (List.mem_append.mp there).resolve_left changed
    exact .inl (List.mem_append_right _ (List.mem_map_of_mem
      (List.mem_filter.mpr ⟨reported, Table.isNone_lookup_iff.mpr changed⟩)))

theorem paths_put (parser : Option SurfaceParser) (kinds : List (String × ChangeKind))
    (modules : List ScannedModule) :
    (put kinds modules
        (enhancements parser kinds (plainNodes kinds (collectReports modules)))).graph.paths =
      FirstSeen.of ((plainNodes kinds (collectReports modules)).map Node.path) := by
  have same : ((plainNodes kinds (collectReports modules)).map (surfaced parser kinds)).map
      Node.path = (plainNodes kinds (collectReports modules)).map Node.path := by
    rw [List.map_map]
    exact List.map_congr_left fun node _ => path_surfaced parser kinds node
  rw [put, map_fst_enhancements, ← same]
  refine paths_buildGraph fun path there => ?_
  rw [same]
  exact covers_plainNodes there

end Assembly

namespace Engine

open Assembly (firstKinds collectReports plainNodes)

/-- What the edge source is asked for when the graph of some paths is. -/
def requested (paths : List String) : List String :=
  FirstSeen.of (paths.map Path.normalize^[2])

/-- The paths of a graph: those that were requested and then the others that were reported under a
path, each normalized once more at every stage that it went through. -/
def graphPaths (paths : List String) (modules : List ScannedModule) : List String :=
  let reported := (modules.map fun m => Path.normalize m.path).filter fun path =>
    path ≠ "" ∧ path ∉ requested paths
  FirstSeen.of (paths.map Path.normalize^[4] ++ reported.map Path.normalize)

/-- The graph of some paths for what was reported about them. -/
def graphOf (engine : Engine) (paths : List String) (modules : List ScannedModule) : Graph :=
  let kinds := firstKinds (paths.map Change.modified)
  (Assembly.put kinds modules
    (Assembly.enhancements engine.parser kinds (plainNodes kinds (collectReports modules)))).graph

theorem map_fst_firstKinds_modified (paths : List String) :
    (firstKinds (paths.map Change.modified)).map Prod.fst = requested paths := by
  rw [Assembly.map_fst_firstKinds, List.map_map]
  rfl

theorem paths_graphOf (engine : Engine) (paths : List String) (modules : List ScannedModule) :
    (engine.graphOf paths modules).paths = graphPaths paths modules := by
  have others : ((collectReports modules).map Prod.fst).filter (fun path =>
        ((firstKinds (paths.map Change.modified)).lookup path).isNone) =
      FirstSeen.of ((modules.map fun m => Path.normalize m.path).filter fun path =>
        path ≠ "" ∧ path ∉ requested paths) := by
    rw [Assembly.map_fst_collectReports, ← FirstSeen.of_filter, List.filter_filter]
    refine congrArg _ (List.filter_congr fun path _ => ?_)
    rw [Bool.eq_iff_iff, Bool.and_eq_true, Table.isNone_lookup_iff, map_fst_firstKinds_modified,
      decide_eq_true_iff, decide_eq_true_iff, and_comm]
  rw [graphOf, Assembly.paths_put, Assembly.map_path_plainNodes, map_fst_firstKinds_modified,
    others, graphPaths, FirstSeen.of_append, FirstSeen.of_append, FirstSeen.foldl_add_map_of,
    FirstSeen.of, requested, FirstSeen.foldl_add_map_of, List.map_map]
  rfl

/-- Without cancellation the graph of some paths fails with the edge source and not otherwise. -/
theorem start_dependencyGraph (engine : Engine) (paths : List String) (raised : Bool) :
    ((engine.dependencyGraph paths).start ⟨false, raised⟩).1 =
      match (engine.source (requested paths)).answer with
      | .error fault => .error (.graphBuild fault)
      | .ok modules => .ok (engine.graphOf paths modules) := by
  have parser : (if engine.parser.isSome then engine.parser else none) = engine.parser := by
    cases engine.parser <;> rfl
  have unwatched : (⟨false, raised⟩ : Cancellation).stops = false := rfl
  rw [dependencyGraph, Run.start_bind, assemble_eq,
    Assembly.Stage.sound_oneByOne.start_assembleWith, unwatched, if_neg Bool.false_ne_true]
  dsimp only
  rw [map_fst_firstKinds_modified, parser]
  cases (engine.source (requested paths)).answer with
  | error fault => rfl
  | ok modules => rfl

/-! ## Empty paths -/

variable {paths : List String} {modules : List ScannedModule}

/-- The empty path has a node when a requested path ends up empty, or one that was reported under a
path does. -/
theorem empty_mem_graphPaths_iff :
    "" ∈ graphPaths paths modules ↔
      (∃ path ∈ paths, Path.normalize^[4] path = "") ∨
        ∃ m ∈ modules, Path.normalize m.path ≠ "" ∧ Path.normalize^[2] m.path = "" := by
  simp only [graphPaths, FirstSeen.mem_of, List.mem_append, List.mem_map, List.mem_filter,
    decide_eq_true_iff]
  constructor
  · rintro (there | ⟨_, ⟨⟨m, hm, rfl⟩, some_path, -⟩, empty⟩)
    · exact .inl there
    · exact .inr ⟨m, hm, some_path, empty⟩
  · rintro (there | ⟨m, hm, some_path, empty⟩)
    · exact .inl there
    · by_cases asked : Path.normalize m.path ∈ requested paths
      · -- The path was requested too, and its node is the one that ends up empty.
        obtain ⟨path, there, same⟩ := List.mem_map.mp (FirstSeen.mem_of.mp asked)
        refine .inl ⟨path, there, ?_⟩
        change Path.normalize (Path.normalize (Path.normalize^[2] path)) = ""
        rw [same]
        change Path.normalize (Path.normalize^[2] m.path) = ""
        rw [empty, Path.normalize_empty]
      · exact .inr ⟨_, ⟨⟨m, hm, rfl⟩, some_path, asked⟩, empty⟩

/-- The graph of some paths fails with the edge source, or it has the nodes that the requested and
the reported paths lead to. One of them is empty exactly when a requested path ends up empty, or a
reported one does after it was found not to be; and the order of the graph lists it as well. -/
theorem dependencyGraph_empty_path_iff (engine : Engine) (paths : List String) (raised : Bool) :
    let ended := ((engine.dependencyGraph paths).start ⟨false, raised⟩).1
    match (engine.source (requested paths)).answer with
    | .error fault => ended = .error (.graphBuild fault)
    | .ok modules =>
      ∃ graph, ended = .ok graph ∧ graph.paths = graphPaths paths modules ∧
        ("" ∈ graph.paths ↔ (∃ path ∈ paths, Path.normalize^[4] path = "") ∨
          ∃ m ∈ modules, Path.normalize m.path ≠ "" ∧ Path.normalize^[2] m.path = "") ∧
        match graph.leavesFirst with
        | .ok order => order.Perm graph.paths
        | .error failure => failure = .cyclesBlockOrder graph.cycles := by
  intro ended
  have run := start_dependencyGraph engine paths raised
  cases answer : (engine.source (requested paths)).answer with
  | error fault =>
      rw [answer] at run
      exact run
  | ok modules =>
      rw [answer] at run
      have graph_paths := paths_graphOf engine paths modules
      refine ⟨engine.graphOf paths modules, run, graph_paths, ?_, Graph.leavesFirst_perm _⟩
      rw [graph_paths]
      exact empty_mem_graphPaths_iff

/-- A request for the current directory, which no other entry lets pass, has a node and a place in
the order. -/
theorem dependencyGraph_lists_empty_path :
    let engine : Engine := ⟨.ofTable [], none⟩
    ∃ graph, ((engine.dependencyGraph ["", "a.ts", "./"]).start ⟨false, false⟩).1 = .ok graph ∧
      (Path.normalize "./" = "" ∧ "" ∈ graph.paths) ∧
      graph.paths = ["", "a.ts"] ∧ graph.leavesFirst = .ok ["", "a.ts"] := by
  refine ⟨_, rfl, ?_⟩
  decide

end Engine

end CommitSplit
