import CommitSplit.Digraph.Linking
import CommitSplit.Graph.Order
import CommitSplit.Group.Basic

/-!
# Forming groups

With a graph, two changed files share a group when a chain of dependencies between changed files
joins them; files that did not change never join others. Without a graph every file has a group of
its own. Groups are numbered in the order of their first files.
-/

namespace CommitSplit

/-- The risk of one file: high on a cycle, otherwise that of its node, or the baseline of an unknown
file. -/
def Graph.memberRisk (g : Graph) (path : String) : Risk :=
  if g.isInCycle path then .high
  else
    match g.node? path with
    | some node => node.risk
    | none => (Node.new path).risk

/-- The greatest risk of the files; without a graph it is low. -/
def aggregateRisk (graph : Option Graph) (files : List String) : Risk :=
  match graph with
  | none => .low
  | some g => Risk.maximum (files.map g.memberRisk)

namespace Group

/-- The name of the group at a place. -/
def idAt (i : Nat) : String :=
  "group-" ++ toString (i + 1)

/-- The group of a file about whose dependencies nothing is known. -/
def alone (i : Nat) (path : String) : Group :=
  { id := idAt i, files := [path], risk := .low
    rationale := path ++ " analyzed without a dependency graph"
    containsCycle := false, order := [path] }

/-- The number of dependencies that stay among the files. -/
def linkCount (g : Graph) (files : List String) : Nat :=
  (files.flatMap fun file => (g.dependencies file).filter fun target => target ∈ files).length

/-- Why the files are together, and what to look at. -/
def rationaleOf (g : Graph) (files : List String) (containsCycle : Bool) : String :=
  let reason :=
    match files with
    | [file] => file ++ " has no dependency links to other changed files"
    | _ =>
      toString files.length ++ " files connected by " ++ toString (linkCount g files) ++
        " dependency edges"
  let cycle := if containsCycle then "; contains a circular dependency" else ""
  let changed := (files.filter fun file => (g.node? file).any Node.surfaceChanged).length
  let surface :=
    if changed = 0 then "" else "; " ++ toString changed ++ " with public API changes"
  reason ++ cycle ++ surface

/-- The group of files that a graph links. -/
def linked (g : Graph) (i : Nat) (files : List String) : Group :=
  let containsCycle := files.any g.isInCycle
  { id := idAt i, files := files, risk := aggregateRisk (some g) files
    rationale := rationaleOf g files containsCycle
    containsCycle := containsCycle
    order := (g.orderWithin files).getD files }

/-- The dependencies between changed files, by their places. -/
def linksBetween (g : Graph) (paths : List String) : List (Nat × Nat) :=
  paths.zipIdx.flatMap fun (path, i) =>
    (g.dependencies path).filterMap fun target => (paths.idxOf? target).map fun j => (i, j)

/-- The groups of the changed files. -/
def form (graph : Option Graph) (paths : List String) : List Group :=
  match graph with
  | none => paths.zipIdx.map fun (path, i) => alone i path
  | some g =>
    (Digraph.blocks paths (linksBetween g paths)).zipIdx.map fun (files, i) => linked g i files

end Group

end CommitSplit
