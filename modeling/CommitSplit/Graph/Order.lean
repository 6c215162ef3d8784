import CommitSplit.Failure
import CommitSplit.Graph.Basic

/-!
# Orders that put dependencies first

The order of a whole graph exists when it has no cycle. The order of some members looks only at
edges between them, so it may exist in a graph with cycles; members that are no nodes come first.
-/

namespace CommitSplit.Graph

/-- All nodes with dependencies first, or the cycles that prevent it. -/
def topologicalOrder (g : Graph) : Except (List (List String)) (List String) :=
  let table := adjacency g.entries
  let found := Digraph.traverse g.size (successorsIn table) (List.range g.size)
  if found.cyclic then .error g.cycles else .ok (pathsAt g.entries found.order)

/-- All nodes with dependencies first, or the failure that names the cycles. -/
def leavesFirst (g : Graph) : Except Failure (List String) :=
  g.topologicalOrder.mapError .cyclesBlockOrder

/-- The successors of each entry that are members. -/
def innerAdjacency (entries : List Entry) (members : List Nat) : Array (List Nat) :=
  (adjacency entries).map fun successors => successors.filter fun i => i ∈ members

/-- The members with dependencies first, unless the edges between them make a cycle. -/
def orderWithin (g : Graph) (members : List String) : Option (List String) :=
  let roots := members.filterMap (position? g.entries)
  let table := innerAdjacency g.entries roots
  let found := Digraph.traverse g.size (successorsIn table) roots
  if found.cyclic then none
  else some ((members.filter fun member => !g.contains member) ++ pathsAt g.entries found.order)

end CommitSplit.Graph
