import CommitSplit.Digraph.Cycle
import CommitSplit.FirstSeen
import CommitSplit.Node

/-!
# Dependency graphs

A graph lists files with the paths that each depends on. A target without an entry of its own is
external. `Draft` is a graph that still grows: nodes and edges are added to it, and `Draft.build`
finds the cycles and closes it.

A node is found by its path. Adding a node for a path that is there replaces the node and keeps its
place and its edges.
-/

namespace CommitSplit

namespace Graph

/-- A file with its direct dependencies. -/
structure Entry where
  node : Node
  targets : List String
  deriving DecidableEq, Inhabited

/-- The place of the entry for a path. -/
def position? (entries : List Entry) (path : String) : Option Nat :=
  entries.findIdx? fun entry => entry.node.path = path

/-- The successors of each entry: the places of those targets that have an entry. -/
def adjacency (entries : List Entry) : Array (List Nat) :=
  (entries.map fun entry => entry.targets.filterMap (position? entries)).toArray

/-- The successors of an entry by its place. -/
def successorsIn (adjacency : Array (List Nat)) (i : Nat) : List Nat :=
  adjacency.getD i []

/-- The paths of the entries at the given places. -/
def pathsAt (entries : List Entry) (places : List Nat) : List String :=
  let table := entries.toArray
  places.filterMap fun i => table[i]?.map fun entry => entry.node.path

/-- The cyclic components as paths: members in the order of the entries, components by their first
member. -/
def cyclesOf (entries : List Entry) : List (List String) :=
  let table := adjacency entries
  (Digraph.cyclicComponents entries.length (successorsIn table)).map (pathsAt entries)

end Graph

/-- A graph with its cycles. -/
structure Graph where
  entries : List Graph.Entry
  cycles : List (List String)
  deriving DecidableEq, Inhabited

namespace Graph

/-- A graph that still grows. -/
structure Draft where
  entries : List Entry
  deriving DecidableEq, Inhabited

namespace Draft

def empty : Draft :=
  ⟨[]⟩

def size (d : Draft) : Nat :=
  d.entries.length

def contains (d : Draft) (path : String) : Bool :=
  (position? d.entries path).isSome

/-- Adds a node, or replaces the node of its path in place. -/
def insert (d : Draft) (node : Node) : Draft :=
  match position? d.entries node.path with
  | some i => ⟨d.entries.modify i fun entry => { entry with node := node }⟩
  | none => ⟨d.entries ++ [⟨node, []⟩]⟩

/-- Adds a target to the entry at a place, once. -/
def addTarget (d : Draft) (i : Nat) (target : String) : Draft :=
  ⟨d.entries.modify i fun entry => { entry with targets := FirstSeen.add entry.targets target }⟩

/-- Adds the dependency of one path on another. Paths are normalized, and nothing happens when one
of them is empty then. A source without a node gets one, and the edge goes to the last entry, where
a node that was added stands. -/
def addDependency (d : Draft) (source target : String) : Draft :=
  let source := Path.normalize source
  let target := Path.normalize target
  if source = "" ∨ target = "" then d
  else
    match position? d.entries source with
    | some i => d.addTarget i target
    | none =>
      let d := d.insert (Node.new source)
      d.addTarget (d.size - 1) target

/-- Adds the dependencies of one path in turn. -/
def addDependencies (d : Draft) (source : String) (targets : List String) : Draft :=
  targets.foldl (fun d target => d.addDependency source target) d

/-- Finds the cycles and closes the graph. -/
def build (d : Draft) : Graph :=
  ⟨d.entries, cyclesOf d.entries⟩

end Draft

/-- The graph without entries. -/
def empty : Graph :=
  Draft.empty.build

/-- A draft that starts with the entries of a graph. -/
def toDraft (g : Graph) : Draft :=
  ⟨g.entries⟩

def size (g : Graph) : Nat :=
  g.entries.length

/-- The number of edges, those to external targets included. -/
def edgeCount (g : Graph) : Nat :=
  (g.entries.flatMap Entry.targets).length

def contains (g : Graph) (path : String) : Bool :=
  (position? g.entries path).isSome

/-- The entry of a path. -/
def entry? (g : Graph) (path : String) : Option Entry :=
  g.entries.find? fun entry => entry.node.path = path

def node? (g : Graph) (path : String) : Option Node :=
  (g.entry? path).map Entry.node

/-- The paths of all nodes in order. -/
def paths (g : Graph) : List String :=
  g.entries.map fun entry => entry.node.path

/-- The direct dependencies of a path, none for an unknown one. -/
def dependencies (g : Graph) (path : String) : List String :=
  ((g.entry? path).map Entry.targets).getD []

/-- The nodes that directly depend on a path, in order. -/
def dependents (g : Graph) (path : String) : List String :=
  (g.entries.filter fun entry => path ∈ entry.targets).map fun entry => entry.node.path

/-- The targets without a node, in first-seen order. -/
def external (g : Graph) : List String :=
  FirstSeen.of ((g.entries.flatMap Entry.targets).filter fun target => !g.contains target)

def hasCycles (g : Graph) : Bool :=
  !g.cycles.isEmpty

/-- Whether a path lies on a cycle. -/
def isInCycle (g : Graph) (path : String) : Bool :=
  g.cycles.any fun cycle => path ∈ cycle

/-- The counts of a graph in one line. -/
def summary (g : Graph) : String :=
  "DependencyGraph \x7b node_count: " ++ toString g.size ++ ", edge_count: " ++
    toString g.edgeCount ++ ", cycle_count: " ++ toString g.cycles.length ++ " \x7d"

/-- A graph as data: nodes, edges by source, cycles and external targets. -/
def toJson (g : Graph) : Json :=
  .obj
    [("nodes", .list Node.toJson (g.entries.map Entry.node)),
      ("edges", .obj (g.entries.map fun entry => (entry.node.path, .strings entry.targets))),
      ("cycles", .list Json.strings g.cycles), ("external", .strings g.external)]

end Graph

end CommitSplit
