import CommitSplit.Analysis.Run
import CommitSplit.Graph.Basic

/-!
# Assembling the graph of a change set

The changed paths are scanned once. The nodes of the graph are the changed paths in order, then the
other paths that the edge source reported. If asked for, the surface of every source file that is
not deleted is added to its node; where that fails the node stays as it is and a warning is given.
-/

namespace CommitSplit

/-- A graph with the problems met on the way to it. -/
structure Assembly where
  graph : Graph
  warnings : List String
  deriving DecidableEq

namespace Assembly

/-- The distinct normal paths of the changes, each with the kind of its first change. -/
def firstKinds (changes : List Change) : List (String × ChangeKind) :=
  changes.foldl
    (fun kinds change =>
      let path := Path.normalize change.path
      if (kinds.lookup path).isSome then kinds else kinds ++ [(path, change.kind)])
    []

/-- Adds the dependencies of a module to those reported before. -/
def addReport (reports : List (String × List String)) (m : ScannedModule) :
    List (String × List String) :=
  let path := Path.normalize m.path
  if path = "" then reports
  else if (reports.lookup path).isSome then
    reports.map fun (known, targets) =>
      if known = path then (known, targets ++ m.dependencies) else (known, targets)
  else reports ++ [(path, m.dependencies)]

/-- The reported dependencies by normal path; reports for one path are put together. -/
def collectReports (modules : List ScannedModule) : List (String × List String) :=
  modules.foldl addReport []

/-- What is said about a changed path that the edge source left out. -/
def noEntryWarning (path : String) : String :=
  "edge source returned no entry for " ++ path ++ "; treated as having no dependencies"

/-- The nodes of the graph before any surface is known. -/
def plainNodes (kinds : List (String × ChangeKind)) (reports : List (String × List String)) :
    List Node :=
  (kinds.map fun (path, kind) => Node.ofChange (Change.new path kind)) ++
    ((reports.map Prod.fst).filter fun path => (kinds.lookup path).isNone).map Node.new

/-- Whether the surface of a node is asked for: a deleted file has nothing left to parse. -/
def isEligible (parser : SurfaceParser) (kinds : List (String × ChangeKind)) (node : Node) : Bool :=
  kinds.lookup node.path != some .deleted && parser.canEnhance node

/-- Adds the surface to one node. -/
def enhanceNode (parser : SurfaceParser) (kinds : List (String × ChangeKind)) (node : Node) :
    Run (Node × Option SkippedEnhancement) := do
  Run.checkpoint
  if isEligible parser kinds node then
    let answer ← Run.consult (parser.parse node.path)
    return node.enhanceOrKeep answer
  else
    return (node, none)

/-- The graph of nodes and reported dependencies. -/
def buildGraph (kinds : List (String × ChangeKind)) (reports : List (String × List String))
    (nodes : List Node) : Graph :=
  let draft := nodes.foldl Graph.Draft.insert .empty
  let paths := kinds.map Prod.fst ++ reports.map Prod.fst
  (paths.foldl
    (fun draft path => draft.addDependencies path ((reports.lookup path).getD [])) draft).build

end Assembly

/-- Scans the changed paths and assembles their graph. -/
def assemble (source : EdgeSource) (parser : Option SurfaceParser) (changes : List Change)
    (enhance : Bool) : Run Assembly := do
  let kinds := Assembly.firstKinds changes
  let paths := kinds.map Prod.fst
  Run.checkpoint
  let modules ←
    match ← Run.consult (source paths) with
    | .ok modules => pure modules
    | .error fault => throw (Failure.graphBuild fault)
  let reports := Assembly.collectReports modules
  let unreported := paths.filter fun path => (reports.lookup path).isNone
  let plain := Assembly.plainNodes kinds reports
  let enhanced ←
    match if enhance then parser else none with
    | some parser => plain.mapM (Assembly.enhanceNode parser kinds)
    | none => pure (plain.map fun node => (node, none))
  Run.checkpoint
  return {
    graph := Assembly.buildGraph kinds reports (enhanced.map Prod.fst)
    warnings :=
      unreported.map Assembly.noEntryWarning ++
        (enhanced.filterMap Prod.snd).map SkippedEnhancement.message }

end CommitSplit
