import CommitSplit.Graph.Order
import CommitSplit.Proofs.Graph.Cycles

/-!
# The nodes of a graph

Nodes with new paths are appended to a draft as they are, and a dependency of a known file adds no
node. Dependencies, cycles and orders look at the paths of nodes and at nothing else of them: when
every node is replaced by another one of its path, before or after the graph was built, they stay
the same.
-/

namespace CommitSplit.Graph

/-- The nodes of entries in their order. -/
def nodesOf (entries : List Entry) : List Node :=
  entries.map Entry.node

theorem pathsOf_eq (entries : List Entry) : pathsOf entries = (nodesOf entries).map Node.path := by
  simp [pathsOf, nodesOf]

/-- The node of a path is the one that has it. -/
theorem node?_eq_some_iff {g : Graph} (distinct : (pathsOf g.entries).Nodup) {path : String}
    {node : Node} : g.node? path = some node ↔ node ∈ nodesOf g.entries ∧ node.path = path := by
  rw [node?, Option.map_eq_some_iff, nodesOf, List.mem_map]
  simp only [entry?_eq_some_iff distinct]
  constructor
  · rintro ⟨entry, ⟨there, path⟩, rfl⟩
    exact ⟨⟨entry, there, rfl⟩, path⟩
  · rintro ⟨⟨entry, there, rfl⟩, path⟩
    exact ⟨entry, ⟨there, path⟩, rfl⟩

namespace Draft

variable {d : Draft} {node : Node} {nodes : List Node} {source target : String}

theorem nodesOf_insert (fresh : node.path ∉ pathsOf d.entries) :
    nodesOf (d.insert node).entries = nodesOf d.entries ++ [node] := by
  rw [insert_of_fresh fresh]
  simp [nodesOf]

theorem nodesOf_insert_of_position? {i : Nat} (found : position? d.entries node.path = some i) :
    nodesOf (d.insert node).entries = (nodesOf d.entries).set i node := by
  rw [insert, found, List.set_eq_modify]
  exact map_modify fun _ => rfl

theorem nodesOf_foldl_insert
    (distinct : ((nodesOf d.entries ++ nodes).map Node.path).Nodup) :
    nodesOf (nodes.foldl insert d).entries = nodesOf d.entries ++ nodes := by
  induction nodes generalizing d with
  | nil => simp
  | cons node nodes ih =>
      have fresh : node.path ∉ pathsOf d.entries := by
        rw [List.map_append, ← pathsOf_eq, List.map_cons] at distinct
        exact fun there => (List.nodup_append.mp distinct).2.2 _ there _ List.mem_cons_self rfl
      have inserted := nodesOf_insert fresh
      have rest := ih (by rw [inserted]; simpa using distinct)
      rw [List.foldl_cons, rest, inserted, List.append_assoc, List.singleton_append]

@[simp] theorem nodesOf_addTarget (d : Draft) (i : Nat) (target : String) :
    nodesOf (d.addTarget i target).entries = nodesOf d.entries :=
  map_modify_of_same fun _ => rfl

/-- A dependency of a known file is nothing but a target, or nothing at all. -/
theorem addDependency_of_known (known : Path.normalize source ∈ pathsOf d.entries) :
    d.addDependency source target = d ∨
      ∃ i, d.addDependency source target = d.addTarget i (Path.normalize target) := by
  unfold addDependency
  dsimp only
  split
  · exact .inl rfl
  · cases found : position? d.entries (Path.normalize source) with
    | none => exact absurd known (position?_eq_none_iff.mp found)
    | some i => exact .inr ⟨i, rfl⟩

theorem nodesOf_addDependency (known : Path.normalize source ∈ pathsOf d.entries) :
    nodesOf (d.addDependency source target).entries = nodesOf d.entries := by
  rcases addDependency_of_known known with same | ⟨i, added⟩
  · rw [same]
  · rw [added, nodesOf_addTarget]

theorem pathsOf_addDependency (known : Path.normalize source ∈ pathsOf d.entries) :
    pathsOf (d.addDependency source target).entries = pathsOf d.entries := by
  rw [pathsOf_eq, nodesOf_addDependency known, ← pathsOf_eq]

theorem nodesOf_addDependencies (known : Path.normalize source ∈ pathsOf d.entries)
    (targets : List String) :
    nodesOf (d.addDependencies source targets).entries = nodesOf d.entries := by
  induction targets generalizing d with
  | nil => rfl
  | cons target targets ih =>
      have still : Path.normalize source ∈ pathsOf (d.addDependency source target).entries := by
        rw [pathsOf_addDependency known]
        exact known
      rw [addDependencies_cons, ih still, nodesOf_addDependency known]

end Draft

/-! ## Replacing nodes -/

/-- Entries with other nodes. -/
def mapEntries (f : Node → Node) (entries : List Entry) : List Entry :=
  entries.map fun entry => { entry with node := f entry.node }

/-- A graph with other nodes. -/
def mapNodes (f : Node → Node) (g : Graph) : Graph :=
  ⟨mapEntries f g.entries, g.cycles⟩

/-- A draft with other nodes. -/
def Draft.mapNodes (f : Node → Node) (d : Draft) : Draft :=
  ⟨mapEntries f d.entries⟩

@[simp] theorem entries_mapNodes (f : Node → Node) (g : Graph) :
    (g.mapNodes f).entries = mapEntries f g.entries := rfl

@[simp] theorem Draft.entries_mapNodes (f : Node → Node) (d : Draft) :
    (d.mapNodes f).entries = mapEntries f d.entries := rfl

theorem nodesOf_mapEntries (f : Node → Node) (entries : List Entry) :
    nodesOf (mapEntries f entries) = (nodesOf entries).map f := by
  simp [nodesOf, mapEntries]

theorem Draft.addTarget_mapNodes (f : Node → Node) (d : Draft) (i : Nat) (target : String) :
    (d.mapNodes f).addTarget i target = (d.addTarget i target).mapNodes f := by
  symm
  exact congrArg Draft.mk (map_modify fun _ => rfl)

section Keeping

variable {f : Node → Node} (keeps : ∀ node, (f node).path = node.path)

include keeps

theorem position?_mapEntries (entries : List Entry) :
    position? (mapEntries f entries) = position? entries := by
  funext path
  rw [position?, position?, mapEntries, List.findIdx?_map]
  simp only [Function.comp_def, keeps]

theorem pathsOf_mapEntries (entries : List Entry) :
    pathsOf (mapEntries f entries) = pathsOf entries := by
  simp [pathsOf, mapEntries, Function.comp_def, keeps]

theorem pathsAt_mapEntries (entries : List Entry) :
    pathsAt (mapEntries f entries) = pathsAt entries := by
  funext places
  rw [pathsAt_eq, pathsAt_eq, pathsOf_mapEntries keeps]

theorem adjacency_mapEntries (entries : List Entry) :
    adjacency (mapEntries f entries) = adjacency entries := by
  rw [adjacency, adjacency, position?_mapEntries keeps, mapEntries, List.map_map]
  rfl

theorem cyclesOf_mapEntries (entries : List Entry) :
    cyclesOf (mapEntries f entries) = cyclesOf entries := by
  rw [cyclesOf, cyclesOf, adjacency_mapEntries keeps, pathsAt_mapEntries keeps, mapEntries,
    List.length_map]

/-! ### Graphs -/

theorem node?_mapNodes (g : Graph) (path : String) :
    (g.mapNodes f).node? path = (g.node? path).map f := by
  rw [node?, node?, entry?, entry?, mapNodes, mapEntries, List.find?_map]
  simp only [Function.comp_def, keeps, Option.map_map]

theorem dependencies_mapNodes (g : Graph) (path : String) :
    (g.mapNodes f).dependencies path = g.dependencies path := by
  rw [dependencies, dependencies, entry?, entry?, mapNodes, mapEntries, List.find?_map]
  simp only [Function.comp_def, keeps, Option.map_map]

theorem orderWithin_mapNodes (g : Graph) (members : List String) :
    (g.mapNodes f).orderWithin members = g.orderWithin members := by
  have size_eq : (g.mapNodes f).size = g.size := by simp [size, mapNodes, mapEntries]
  have contains_eq : (g.mapNodes f).contains = g.contains := by
    funext path
    rw [contains, contains, entries_mapNodes, position?_mapEntries keeps]
  rw [orderWithin, orderWithin, innerAdjacency, innerAdjacency, entries_mapNodes,
    position?_mapEntries keeps, adjacency_mapEntries keeps, pathsAt_mapEntries keeps, size_eq,
    contains_eq]

/-! ### Drafts -/

namespace Draft

variable (d : Draft) {source : String}

theorem build_mapNodes : (d.mapNodes f).build = d.build.mapNodes f := by
  rw [build, entries_mapNodes, cyclesOf_mapEntries keeps]
  rfl

theorem insert_mapNodes (node : Node) :
    (d.mapNodes f).insert (f node) = (d.insert node).mapNodes f := by
  rw [insert, insert, keeps, entries_mapNodes, position?_mapEntries keeps]
  cases position? d.entries node.path with
  | none => simp [mapNodes, mapEntries]
  | some i =>
      symm
      exact congrArg Draft.mk (map_modify fun _ => rfl)

theorem foldl_insert_mapNodes (nodes : List Node) :
    (nodes.map f).foldl insert (d.mapNodes f) = (nodes.foldl insert d).mapNodes f := by
  induction nodes generalizing d with
  | nil => rfl
  | cons node nodes ih =>
      rw [List.map_cons, List.foldl_cons, insert_mapNodes keeps, ih, List.foldl_cons]

/-- A known source gets no node that would not be replaced. -/
theorem addDependency_mapNodes (known : Path.normalize source ∈ pathsOf d.entries)
    (target : String) :
    (d.mapNodes f).addDependency source target = (d.addDependency source target).mapNodes f := by
  rw [addDependency, addDependency, entries_mapNodes, position?_mapEntries keeps]
  dsimp only
  split
  · rfl
  · cases found : position? d.entries (Path.normalize source) with
    | none => exact absurd known (position?_eq_none_iff.mp found)
    | some i => exact addTarget_mapNodes f d i _

theorem addDependencies_mapNodes (known : Path.normalize source ∈ pathsOf d.entries)
    (targets : List String) :
    (d.mapNodes f).addDependencies source targets =
      (d.addDependencies source targets).mapNodes f := by
  induction targets generalizing d with
  | nil => rfl
  | cons target targets ih =>
      have still : Path.normalize source ∈ pathsOf (d.addDependency source target).entries := by
        rw [pathsOf_addDependency known]
        exact known
      rw [addDependencies_cons, addDependency_mapNodes keeps d known, ih _ still,
        addDependencies_cons]

end Draft

end Keeping

end CommitSplit.Graph
