import CommitSplit.Digraph.Traversal

/-!
# Cyclic components

Two nodes belong together when each can be reached from the other by at least one edge. The cyclic
components are the classes of the nodes that can be reached from themselves; a node on no cycle is
in none of them.
-/

namespace CommitSplit.Digraph

/-- Marks everything that can be reached from the nodes that are left to do, themselves included. -/
def spread (successors : Nat → List Nat) : Nat → List Nat → Array Bool → Array Bool
  | 0, _, seen => seen
  | _ + 1, [], seen => seen
  | fuel + 1, node :: todo, seen =>
    if seen.getD node true then spread successors fuel todo seen
    else spread successors fuel (successors node ++ todo) (seen.setIfInBounds node true)

/-- The nodes that can be reached from a node by at least one edge, as one flag per node. -/
def reach (size : Nat) (successors : Nat → List Nat) (node : Nat) : Array Bool :=
  spread successors (2 * effort size successors + 1) (successors node) (Array.replicate size false)

/-- For each node the nodes that can be reached from it. -/
def reachTable (size : Nat) (successors : Nat → List Nat) : Array (Array Bool) :=
  (Array.range size).map (reach size successors)

/-- Whether the table says that one node can be reached from the other. -/
def reaches (table : Array (Array Bool)) (source target : Nat) : Bool :=
  (table.getD source #[]).getD target false

/-- The cyclic components, each in ascending order, by ascending first member. -/
def cyclicComponents (size : Nat) (successors : Nat → List Nat) : List (List Nat) :=
  let table := reachTable size successors
  let cyclic := (List.range size).filter fun node => reaches table node node
  cyclic.filterMap fun node =>
    let members := cyclic.filter fun other =>
      reaches table node other && reaches table other node
    if members.head? = some node then some members else none

end CommitSplit.Digraph
