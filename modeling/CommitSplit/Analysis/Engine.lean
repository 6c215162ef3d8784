import CommitSplit.Analysis.Assembly
import CommitSplit.Analysis.Report
import CommitSplit.Group.ChangeSet
import CommitSplit.Group.Validation
import CommitSplit.Options

/-!
# Analysing changes

An analysis selects the changes that take part, chooses its mode, assembles the graph if the mode
asks for one, forms the groups and validates them. It looks at the cancellation flag before each
stage. An engine is only its collaborators, so runs do not depend on one another.
-/

namespace CommitSplit

structure Engine where
  source : EdgeSource
  parser : Option SurfaceParser

namespace Engine

/-- The groups of those changes that take part. -/
def groupsOf (exclusion : Exclusion) (graph : Option Graph) (changes : List Change) : List Group :=
  Group.form graph (ChangeSet.collect exclusion changes).paths

/-- What a selection has to say. -/
def selectionWarnings (set : ChangeSet) : List String :=
  (if set.blank = 0 then []
    else [toString set.blank ++ " changes with an empty path ignored"]) ++
    if set.excluded = [] then []
    else [toString set.excluded.length ++ " files excluded by excludeFiles"]

/-- The mode of an analysis; with nothing to analyse it is simple. -/
def modeFor (set : ChangeSet) (options : Options) : Mode :=
  if set.changes = [] then .simple
  else selectMode options.maxSimpleFiles set.changes options.mode

/-- What is said when surfaces are asked for and nobody can parse them. -/
def noParserWarning : String :=
  "enhanceWithAST requested but no module parser is configured"

/-- What the groups and cycles of a finished analysis have to say. -/
def outcomeWarnings (cycles : List (List String)) (groups : List Group) : List String :=
  let high := (groups.filter fun group => group.risk = .high).length
  (if cycles = [] then [] else [toString cycles.length ++ " circular dependencies found"]) ++
    if high = 0 then []
    else [toString high ++ " high-risk groups detected - review recommended"]

/-- The graph that the mode asks for, with what there is to say about it. -/
def graphFor (engine : Engine) (mode : Mode) (changes : List Change) (options : Options) :
    Run (Option Graph × List String) := do
  match mode with
  | .simple => return (none, [])
  | .complex =>
    let unparsed := options.enhance && engine.parser.isNone
    let assembly ← assemble engine.source engine.parser changes options.enhance
    return (some assembly.graph,
      (if unparsed then [noParserWarning] else []) ++ assembly.warnings)

/-- Analyses changes. The elapsed time of the report is zero; a caller with a clock fills it in. -/
def analyze (engine : Engine) (changes : List Change) (options : Options) : Run Report := do
  Run.checkpoint
  let exclusion ← Run.lift (Exclusion.ofPatterns options.exclude)
  let set := ChangeSet.collect exclusion changes
  let mode := modeFor set options
  let (graph, graphWarnings) ← engine.graphFor mode set.changes options
  Run.checkpoint
  let groups := groupsOf exclusion graph set.changes
  Run.checkpoint
  Run.lift (Group.validate graph set.paths groups)
  let cycles := (graph.map Graph.cycles).getD []
  return {
    mode, groups, totalFiles := set.changes.length, elapsedNanos := 0
    warnings := selectionWarnings set ++ graphWarnings ++ outcomeWarnings cycles groups
    cycles, excluded := set.excluded, validation := options.validation }

/-- The graph of some paths, with surfaces if there is a parser. -/
def dependencyGraph (engine : Engine) (paths : List String) : Run Graph := do
  let assembly ←
    assemble engine.source engine.parser (paths.map Change.modified) engine.parser.isSome
  return assembly.graph

/-- Groups changes by a graph that is built already. -/
def groupChanges (changes : List Change) (graph : Graph) (options : Options) :
    Except Failure (List Group) := do
  let exclusion ← Exclusion.ofPatterns options.exclude
  let groups := groupsOf exclusion (some graph) changes
  Group.validate (some graph) (ChangeSet.collect exclusion changes).paths groups
  return groups

end Engine

end CommitSplit
