import CommitSplit.Proofs.Graph.Growth
import CommitSplit.Proofs.Graph.Nodes
import CommitSplit.Proofs.Table

/-!
# Drafts taken apart into tables

A draft keeps what belongs to a file in one entry and looks through the entries for a path. The
same operations can be carried out on three tables: nodes, targets, and an index that gives the
place of a path. An operation may then change one table and not the others, and a dependency of an
unknown file even adds its edge to a place that it did not look up. The tables stay in step all the
same, and they are the draft taken apart.
-/

namespace CommitSplit.Graph

open Draft (Operation)

/-- The nodes, the targets of the node at each place, and the place of each path. -/
structure Tables where
  nodes : List Node
  targets : List (List String)
  index : List (String × Nat)

namespace Tables

def empty : Tables :=
  ⟨[], [], []⟩

/-- Adds a row to every table, or replaces the node of a path that is there. -/
def insert (t : Tables) (node : Node) : Tables :=
  match t.index.lookup node.path with
  | some i => { t with nodes := t.nodes.set i node }
  | none => ⟨t.nodes ++ [node], t.targets ++ [[]], (node.path, t.nodes.length) :: t.index⟩

/-- Adds a target to the row at a place, once. -/
def addTarget (t : Tables) (i : Nat) (target : String) : Tables :=
  { t with targets := t.targets.modify i fun targets => FirstSeen.add targets target }

/-- Adds a dependency by the index; a source that is new gets a node, and the edge goes to the last
row. -/
def addDependency (t : Tables) (source target : String) : Tables :=
  let source := Path.normalize source
  let target := Path.normalize target
  if source = "" ∨ target = "" then t
  else
    match t.index.lookup source with
    | some i => t.addTarget i target
    | none =>
      let t := t.insert (Node.new source)
      t.addTarget (t.nodes.length - 1) target

/-- Carries out an operation. A graph has the tables of the draft that it was built from. -/
def apply (t : Tables) : Operation → Tables
  | .insert node => t.insert node
  | .addDependency source target => t.addDependency source target
  | .addDependencies source targets =>
    targets.foldl (fun t target => t.addDependency source target) t
  | .reopen => t

/-- The tables that operations make of the empty ones. -/
def ofOperations (operations : List Operation) : Tables :=
  operations.foldl apply empty

/-- The tables hold the entries of a draft, and the index finds what a search finds. -/
structure Represents (t : Tables) (d : Draft) : Prop where
  nodes_eq : t.nodes = nodesOf d.entries
  targets_eq : t.targets = d.entries.map Entry.targets
  lookup_eq : ∀ path, t.index.lookup path = position? d.entries path

namespace Represents

variable {t : Tables} {d : Draft}

theorem length_nodes (h : t.Represents d) : t.nodes.length = d.size := by
  rw [h.nodes_eq, nodesOf, List.length_map, Draft.size]

theorem insert (h : t.Represents d) (node : Node) : (t.insert node).Represents (d.insert node) := by
  have targets_eq := Draft.map_targets_insert d node
  rw [Tables.insert, h.lookup_eq]
  cases found : position? d.entries node.path with
  | some i =>
      have known := List.mem_of_getElem? (getElem?_of_position? found)
      rw [if_pos known] at targets_eq
      refine ⟨?_, h.targets_eq.trans targets_eq.symm, fun path => ?_⟩
      · rw [Draft.nodesOf_insert_of_position? found, ← h.nodes_eq]
      · rw [h.lookup_eq, position?_eq, position?_eq, Draft.pathsOf_insert, if_pos known]
  | none =>
      have fresh := position?_eq_none_iff.mp found
      rw [if_neg fresh, ← h.targets_eq] at targets_eq
      refine ⟨?_, targets_eq.symm, fun path => ?_⟩
      · rw [Draft.nodesOf_insert fresh, h.nodes_eq]
      · rw [Table.lookup_cons_eq_if, Draft.position?_insert_of_fresh fresh, h.length_nodes,
          h.lookup_eq]

theorem addTarget (h : t.Represents d) (i : Nat) (target : String) :
    (t.addTarget i target).Represents (d.addTarget i target) := by
  refine ⟨?_, ?_, fun path => ?_⟩
  · rw [Draft.nodesOf_addTarget]
    exact h.nodes_eq
  · rw [Tables.addTarget, h.targets_eq]
    symm
    exact map_modify fun _ => rfl
  · rw [position?_eq, Draft.pathsOf_addTarget, ← position?_eq]
    exact h.lookup_eq path

theorem addDependency (h : t.Represents d) (source target : String) :
    (t.addDependency source target).Represents (d.addDependency source target) := by
  unfold Tables.addDependency Draft.addDependency
  dsimp only
  split
  · exact h
  · rw [h.lookup_eq]
    cases position? d.entries (Path.normalize source) with
    | some i => exact h.addTarget i _
    | none =>
        have inserted := h.insert (Node.new (Path.normalize source))
        dsimp only
        rw [inserted.length_nodes]
        exact inserted.addTarget _ _

theorem addDependencies (h : t.Represents d) (source : String) (targets : List String) :
    (targets.foldl (fun t target => t.addDependency source target) t).Represents
      (d.addDependencies source targets) := by
  induction targets generalizing t d with
  | nil => exact h
  | cons target targets ih =>
      rw [List.foldl_cons, Draft.addDependencies_cons]
      exact ih (h.addDependency source target)

theorem apply (h : t.Represents d) (operation : Operation) :
    (t.apply operation).Represents (d.apply operation) := by
  cases operation with
  | insert node => exact h.insert node
  | addDependency source target => exact h.addDependency source target
  | addDependencies source targets => exact h.addDependencies source targets
  | reopen => exact h

/-- Whatever the operations are, the tables come out as the draft does. -/
theorem ofOperations (operations : List Operation) :
    (Tables.ofOperations operations).Represents (Draft.ofOperations operations) := by
  have run (t : Tables) (d : Draft) (h : t.Represents d) :
      (operations.foldl Tables.apply t).Represents (operations.foldl Draft.apply d) := by
    induction operations generalizing t d with
    | nil => exact h
    | cons operation operations ih => exact ih _ _ (h.apply operation)
  exact run Tables.empty Draft.empty ⟨rfl, rfl, fun _ => rfl⟩

end Represents

end Tables

/-- Nodes, their targets and a look-up of places, as they belong together. -/
structure InStep (nodes : List Node) (targets : List (List String))
    (place? : String → Option Nat) : Prop where
  distinct : (nodes.map Node.path).Nodup
  place_iff : ∀ path i, place? path = some i ↔ (nodes.map Node.path)[i]? = some path
  one_list_each : targets.length = nodes.length
  proper : ∀ list ∈ targets, list.Nodup ∧ "" ∉ list

theorem inStep_ofOperations (operations : List Operation) :
    let d := Draft.ofOperations operations
    InStep (nodesOf d.entries) (d.entries.map Entry.targets) (position? d.entries) := by
  intro d
  have distinct : (pathsOf d.entries).Nodup := Draft.nodup_pathsOf operations
  refine ⟨?_, fun path i => ?_, ?_, ?_⟩
  · rwa [← pathsOf_eq]
  · rw [← pathsOf_eq, position?_eq_some_iff distinct]
  · rw [List.length_map, nodesOf, List.length_map]
  · exact List.forall_mem_map.mpr (Draft.hasProperTargets_ofOperations operations)

/-- Operations keep nodes, targets and places in step, in the entries of a draft as well as in
tables, and they only add. The graph that is built finds the same edges from both ends, and it has
every target as a node or else once as external. -/
theorem consistent_ofOperations (operations : List Operation) :
    let d := Draft.ofOperations operations
    let t := Tables.ofOperations operations
    let g := d.build
    InStep (nodesOf d.entries) (d.entries.map Entry.targets) (position? d.entries) ∧
      (t.Represents d ∧ InStep t.nodes t.targets fun path => t.index.lookup path) ∧
      (∀ operation, d.KeptIn (d.apply operation)) ∧
      (∀ a b, b ∈ g.dependencies a ↔ a ∈ g.dependents b) ∧
      ∀ entry ∈ g.entries, ∀ target ∈ entry.targets,
        g.external.count target = if target ∈ g.paths then 0 else 1 := by
  intro d t g
  have inStep := inStep_ofOperations operations
  have represents : t.Represents d := Tables.Represents.ofOperations operations
  have distinct : (pathsOf g.entries).Nodup := Draft.nodup_pathsOf operations
  refine ⟨inStep, ⟨represents, ?_⟩, Draft.KeptIn.apply d, ?_, ?_⟩
  · rw [represents.nodes_eq, represents.targets_eq, funext represents.lookup_eq]
    exact inStep
  · exact mem_dependencies_iff_mem_dependents distinct
  · exact fun entry there target listed => count_external there listed

end CommitSplit.Graph
