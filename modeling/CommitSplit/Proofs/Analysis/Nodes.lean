import CommitSplit.Proofs.Analysis.Assembly
import CommitSplit.Proofs.Analysis.Enhancement
import CommitSplit.Proofs.Graph.Nodes

/-!
# The nodes of an assembled graph

When the changed paths and the reported ones are normal, every path has one node from the start. The
nodes of the graph are then exactly the nodes that went into it, in their order, and a surface
changes the graph in nothing but the node of its file.
-/

namespace CommitSplit.Assembly

open Graph (nodesOf pathsOf)

variable {kinds : List (String × ChangeKind)} {modules : List ScannedModule} {nodes : List Node}
  {path : String}

/-- Changed paths and reported ones that need no further normalization. -/
structure IsNormal (kinds : List (String × ChangeKind)) (modules : List ScannedModule) : Prop where
  normal : ∀ path ∈ kinds.map Prod.fst, Path.normalize path = path ∧ path ≠ ""
  distinct : (kinds.map Prod.fst).Nodup
  fixed : ∀ m ∈ modules, Path.normalize m.path = m.path

theorem isNormal_firstKinds {changes : List Change}
    (normal : ∀ change ∈ changes, Path.normalize change.path = change.path ∧ change.path ≠ "")
    (fixed : ∀ m ∈ modules, Path.normalize m.path = m.path) :
    IsNormal (firstKinds changes) modules := by
  have asked := map_fst_firstKinds_of_fixed fun change there => (normal change there).1
  refine ⟨?_, ?_, fixed⟩
  · rw [asked]
    intro path there
    obtain ⟨change, listed, rfl⟩ := List.mem_map.mp (FirstSeen.mem_of.mp there)
    exact normal change listed
  · rw [asked]
    exact FirstSeen.nodup_of _

/-- The paths of the nodes: the changed paths, then the others that were reported. -/
def nodePaths (kinds : List (String × ChangeKind)) (modules : List ScannedModule) : List String :=
  kinds.map Prod.fst ++
    ((collectReports modules).map Prod.fst).filter fun path => (kinds.lookup path).isNone

theorem mem_nodePaths :
    path ∈ nodePaths kinds modules ↔
      path ∈ kinds.map Prod.fst ++ (collectReports modules).map Prod.fst := by
  rw [nodePaths, List.mem_append, List.mem_append, List.mem_filter, Table.isNone_lookup_iff]
  tauto

theorem mem_map_fst_collectReports :
    path ∈ (collectReports modules).map Prod.fst ↔
      (∃ m ∈ modules, Path.normalize m.path = path) ∧ path ≠ "" := by
  simp [map_fst_collectReports]

/-- Before any surface is known a node has what its path and its change tell. -/
theorem exists_of_mem_plainNodes {reports : List (String × List String)} {node : Node}
    (there : node ∈ plainNodes kinds reports) :
    ∃ path kind, node = Node.ofChangeKind path kind := by
  rcases List.mem_append.mp there with changed | reported
  · obtain ⟨⟨path, kind⟩, -, rfl⟩ := List.mem_map.mp changed
    exact ⟨_, _, rfl⟩
  · obtain ⟨path, -, rfl⟩ := List.mem_map.mp reported
    exact ⟨_, _, rfl⟩

/-- A node of a changed path goes by the normal form of the normal form of that path, and a node of
another reported path by the normal form of that one. -/
theorem map_path_plainNodes (kinds : List (String × ChangeKind))
    (reports : List (String × List String)) :
    (plainNodes kinds reports).map Node.path =
      (kinds.map Prod.fst).map Path.normalize^[2] ++
        ((reports.map Prod.fst).filter fun path => (kinds.lookup path).isNone).map
          Path.normalize := by
  rw [plainNodes, List.map_append, List.map_map, List.map_map, List.map_map]
  rfl

namespace IsNormal

theorem normalize_eq_self (h : IsNormal kinds modules) (there : path ∈ nodePaths kinds modules) :
    Path.normalize path = path ∧ path ≠ "" := by
  rcases List.mem_append.mp (mem_nodePaths.mp there) with changed | reported
  · exact h.normal path changed
  · obtain ⟨⟨m, hm, rfl⟩, some_path⟩ := mem_map_fst_collectReports.mp reported
    rw [h.fixed m hm] at some_path ⊢
    exact ⟨h.fixed m hm, some_path⟩

theorem nodup_nodePaths (h : IsNormal kinds modules) : (nodePaths kinds modules).Nodup := by
  refine h.distinct.append ?_ ?_
  · rw [map_fst_collectReports]
    exact (FirstSeen.nodup_of _).filter _
  · intro path changed other
    exact Table.isNone_lookup_iff.mp (List.mem_filter.mp other).2 changed

theorem map_path_plainNodes (h : IsNormal kinds modules) :
    (plainNodes kinds (collectReports modules)).map Node.path = nodePaths kinds modules := by
  rw [Assembly.map_path_plainNodes, nodePaths]
  congr 1
  · refine (List.map_congr_left fun path there => ?_).trans (List.map_id _)
    have normal := (h.normal path there).1
    change Path.normalize (Path.normalize path) = path
    rw [normal, normal]
  · refine (List.map_congr_left fun path there => ?_).trans (List.map_id _)
    exact (h.normalize_eq_self (List.mem_append_right _ there)).1

end IsNormal

/-! ## The graph -/

theorem nodesOf_foldl_addDependencies {paths : List String} (targets : String → List String)
    (d : Graph.Draft) (known : ∀ path ∈ paths, Path.normalize path ∈ pathsOf d.entries) :
    nodesOf (paths.foldl (fun d path => d.addDependencies path (targets path)) d).entries =
      nodesOf d.entries := by
  induction paths generalizing d with
  | nil => rfl
  | cons first paths ih =>
      obtain ⟨known_first, known⟩ := List.forall_mem_cons.mp known
      have one := Graph.Draft.nodesOf_addDependencies known_first (targets first)
      rw [List.foldl_cons, ih _ (by rwa [Graph.pathsOf_eq, one, ← Graph.pathsOf_eq]), one]

theorem foldl_addDependencies_mapNodes {f : Node → Node}
    (keeps : ∀ node, (f node).path = node.path) {paths : List String}
    (targets : String → List String) (d : Graph.Draft)
    (known : ∀ path ∈ paths, Path.normalize path ∈ pathsOf d.entries) :
    paths.foldl (fun d path => d.addDependencies path (targets path)) (d.mapNodes f) =
      (paths.foldl (fun d path => d.addDependencies path (targets path)) d).mapNodes f := by
  induction paths generalizing d with
  | nil => rfl
  | cons first paths ih =>
      obtain ⟨known_first, known⟩ := List.forall_mem_cons.mp known
      have one := Graph.Draft.nodesOf_addDependencies known_first (targets first)
      rw [List.foldl_cons, Graph.Draft.addDependencies_mapNodes keeps d known_first,
        ih _ (by rwa [Graph.pathsOf_eq, one, ← Graph.pathsOf_eq]), List.foldl_cons]

/-- Every graph that is assembled was built by operations on a draft. -/
theorem wellFormed_buildGraph (kinds : List (String × ChangeKind))
    (reports : List (String × List String)) (nodes : List Node) :
    (buildGraph kinds reports nodes).WellFormed := by
  have built : buildGraph kinds reports nodes = (Graph.Draft.ofOperations
      (nodes.map .insert ++ (kinds.map Prod.fst ++ reports.map Prod.fst).map fun path =>
        .addDependencies path ((reports.lookup path).getD []))).build := by
    conv_rhs => rw [Graph.Draft.ofOperations, List.foldl_append, List.foldl_map, List.foldl_map]
    rfl
  rw [built]
  exact Graph.Draft.wellFormed_build _

namespace IsNormal

/-- The nodes are in the draft before any dependency is added. -/
theorem nodesOf_inserted (h : IsNormal kinds modules)
    (paths : nodes.map Node.path = nodePaths kinds modules) :
    nodesOf (nodes.foldl Graph.Draft.insert .empty).entries = nodes := by
  apply Graph.Draft.nodesOf_foldl_insert
  change (nodes.map Node.path).Nodup
  rw [paths]
  exact h.nodup_nodePaths

/-- So every path that has dependencies is known when they are added. -/
theorem known (h : IsNormal kinds modules)
    (paths : nodes.map Node.path = nodePaths kinds modules) :
    ∀ path ∈ kinds.map Prod.fst ++ (collectReports modules).map Prod.fst,
      Path.normalize path ∈ pathsOf (nodes.foldl Graph.Draft.insert .empty).entries := by
  intro path there
  rw [Graph.pathsOf_eq, h.nodesOf_inserted paths, paths]
  have there := mem_nodePaths.mpr there
  rwa [(h.normalize_eq_self there).1]

/-- The nodes of the graph are those that went into it. -/
theorem nodesOf_buildGraph (h : IsNormal kinds modules)
    (paths : nodes.map Node.path = nodePaths kinds modules) :
    nodesOf (buildGraph kinds (collectReports modules) nodes).entries = nodes :=
  (nodesOf_foldl_addDependencies _ _ (h.known paths)).trans (h.nodesOf_inserted paths)

/-- Replacing nodes before the graph is built is replacing them in the graph. -/
theorem buildGraph_map (h : IsNormal kinds modules)
    (paths : nodes.map Node.path = nodePaths kinds modules) {f : Node → Node}
    (keeps : ∀ node, (f node).path = node.path) :
    buildGraph kinds (collectReports modules) (nodes.map f) =
      (buildGraph kinds (collectReports modules) nodes).mapNodes f := by
  have inserted : (nodes.map f).foldl Graph.Draft.insert .empty =
      (nodes.foldl Graph.Draft.insert .empty).mapNodes f :=
    Graph.Draft.foldl_insert_mapNodes keeps .empty nodes
  rw [buildGraph, inserted, foldl_addDependencies_mapNodes keeps _ _ (h.known paths),
    Graph.Draft.build_mapNodes keeps, ← buildGraph]

end IsNormal

/-! ## Surfaces -/

/-- The graph of a scan before any surface is known. -/
def plainGraph (kinds : List (String × ChangeKind)) (modules : List ScannedModule) : Graph :=
  buildGraph kinds (collectReports modules) (plainNodes kinds (collectReports modules))

theorem wellFormed_plainGraph (kinds : List (String × ChangeKind))
    (modules : List ScannedModule) : (plainGraph kinds modules).WellFormed :=
  wellFormed_buildGraph _ _ _

namespace IsNormal

/-- Surfaces replace nodes of the graph and change nothing else of it. -/
theorem graph_put (h : IsNormal kinds modules) (parser : Option SurfaceParser) :
    (put kinds modules
        (enhancements parser kinds (plainNodes kinds (collectReports modules)))).graph =
      (plainGraph kinds modules).mapNodes (surfaced parser kinds) := by
  rw [put, map_fst_enhancements,
    h.buildGraph_map h.map_path_plainNodes (path_surfaced parser kinds), ← plainGraph]

theorem nodesOf_plainGraph (h : IsNormal kinds modules) :
    nodesOf (plainGraph kinds modules).entries = plainNodes kinds (collectReports modules) :=
  h.nodesOf_buildGraph h.map_path_plainNodes

theorem paths_plainGraph (h : IsNormal kinds modules) :
    (plainGraph kinds modules).paths = nodePaths kinds modules := by
  rw [Graph.paths_eq, Graph.pathsOf_eq, h.nodesOf_plainGraph, h.map_path_plainNodes]

/-- The node of a changed file is found under its path. -/
theorem node?_plainGraph {kind : ChangeKind} (h : IsNormal kinds modules)
    (changed : kinds.lookup path = some kind) :
    (plainGraph kinds modules).node? path = some (Node.ofChangeKind path kind) := by
  have there := Table.mem_of_lookup_eq_some changed
  have normal := (h.normal path (List.mem_map_of_mem there)).1
  rw [Graph.node?_eq_some_iff (wellFormed_plainGraph _ _).distinct, h.nodesOf_plainGraph]
  refine ⟨List.mem_append_left _ (List.mem_map.mpr ⟨_, there, ?_⟩), normal⟩
  change Node.ofChangeKind (Path.normalize path) kind = Node.ofChangeKind path kind
  rw [normal]

end IsNormal

/-! ## Cycles -/

/-- One file was reported to depend on another. -/
def Leads (modules : List ScannedModule) (a b : String) : Prop :=
  (a ≠ "" ∧ b ≠ "") ∧ Reports modules a b

namespace IsNormal

/-- In the graph one file depends on another that has a node when that was reported. -/
theorem depends_plainGraph_iff (h : IsNormal kinds modules) {a b : String} :
    (plainGraph kinds modules).Depends a b ↔ Leads modules a b ∧ b ∈ nodePaths kinds modules := by
  constructor
  · intro depends
    have source := depends.left_mem (wellFormed_plainGraph kinds modules).distinct
    have target := depends.right_mem
    rw [h.paths_plainGraph] at source target
    have some_path := (h.normalize_eq_self source).2
    obtain ⟨reports, some_target⟩ :=
      (mem_dependencies_buildGraph h.normal h.fixed some_path).mp depends.1
    exact ⟨⟨⟨some_path, some_target⟩, reports⟩, target⟩
  · rintro ⟨⟨⟨some_path, some_target⟩, reports⟩, there⟩
    rw [Graph.Depends, Graph.contains_iff, h.paths_plainGraph]
    exact ⟨(mem_dependencies_buildGraph h.normal h.fixed some_path).mpr ⟨reports, some_target⟩,
      there⟩

/-- A file lies on a cycle of the graph exactly when reported dependencies lead from it back to
itself. -/
theorem isInCycle_plainGraph_iff (h : IsNormal kinds modules) :
    (plainGraph kinds modules).isInCycle path = true ↔
      Relation.TransGen (Leads modules) path path := by
  rw [(wellFormed_plainGraph kinds modules).isInCycle_iff]
  constructor
  · exact Relation.TransGen.mono (fun a b depends => (h.depends_plainGraph_iff.mp depends).1)
      path path
  · -- A file that is followed by another one on the cycle was reported, so it has a node.
    refine Digraph.transGen_of_followed fun a b c first next => ?_
    obtain ⟨m, hm, source, -⟩ := next.2
    have reported := mem_map_fst_collectReports.mpr ⟨⟨m, hm, source⟩, first.1.2⟩
    exact h.depends_plainGraph_iff.mpr
      ⟨first, mem_nodePaths.mpr (List.mem_append_right _ reported)⟩

end IsNormal

end CommitSplit.Assembly
