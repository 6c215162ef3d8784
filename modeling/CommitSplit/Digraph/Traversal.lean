/-!
# Depth-first traversal

A directed graph is given by the successors of each of its nodes, which are the numbers below its
size. The traversal keeps a stack of the nodes it is inside of, each with the successors it has not
looked at, and lists a node when all of its successors are finished. So the order puts successors
first, and a successor that is still on the stack shows a cycle.
-/

namespace CommitSplit.Digraph

inductive Mark
  | unvisited | inProgress | done
  deriving DecidableEq, Inhabited

/-- A traversal on its way: the marks of all nodes, whether a cycle was seen, the finished nodes
from the last to the first, and the nodes in progress from the innermost to the outermost. -/
structure Walk where
  marks : Array Mark
  cyclic : Bool
  finished : List Nat
  stack : List (Nat × List Nat)

namespace Walk

/-- A traversal of `size` nodes that has not begun. -/
def start (size : Nat) : Walk :=
  ⟨Array.replicate size .unvisited, false, [], []⟩

/-- The mark of a node; a number that is no node counts as done. -/
def mark (w : Walk) (node : Nat) : Mark :=
  w.marks.getD node .done

/-- Begins with a node. -/
def enter (successors : Nat → List Nat) (w : Walk) (node : Nat) : Walk :=
  { w with
    marks := w.marks.setIfInBounds node .inProgress
    stack := (node, successors node) :: w.stack }

/-- Looks at the next successor of the innermost node, or finishes the node. -/
def step (successors : Nat → List Nat) (w : Walk) : Walk :=
  match w.stack with
  | [] => w
  | (node, []) :: stack =>
    { w with
      marks := w.marks.setIfInBounds node .done
      finished := node :: w.finished
      stack := stack }
  | (node, next :: rest) :: stack =>
    match w.mark next with
    | .unvisited => { w with stack := (node, rest) :: stack }.enter successors next
    | .inProgress => { w with cyclic := true, stack := (node, rest) :: stack }
    | .done => { w with stack := (node, rest) :: stack }

/-- Takes steps until the stack is empty, at most `fuel` of them. -/
def run (successors : Nat → List Nat) : Nat → Walk → Walk
  | 0, w => w
  | fuel + 1, w => if w.stack.isEmpty then w else run successors fuel (w.step successors)

/-- Traverses from a root unless the root was met before. -/
def visit (successors : Nat → List Nat) (fuel : Nat) (w : Walk) (root : Nat) : Walk :=
  if w.mark root = .unvisited then run successors fuel (w.enter successors root) else w

end Walk

/-- A bound on the steps of a traversal: a node is finished once and each of its successors is
looked at once. -/
def effort (size : Nat) (successors : Nat → List Nat) : Nat :=
  size + ((List.range size).flatMap successors).length

/-- What a traversal finds: whether there is a cycle, and the nodes with successors first. -/
structure Traversal where
  cyclic : Bool
  order : List Nat
  deriving DecidableEq

/-- Traverses from the roots in turn. -/
def traverse (size : Nat) (successors : Nat → List Nat) (roots : List Nat) : Traversal :=
  let fuel := effort size successors
  let walk := roots.foldl (Walk.visit successors fuel) (Walk.start size)
  ⟨walk.cyclic, walk.finished.reverse⟩

end CommitSplit.Digraph
