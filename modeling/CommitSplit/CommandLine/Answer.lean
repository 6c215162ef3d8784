import CommitSplit.Analysis.Report
import CommitSplit.CommandLine.Complaint
import CommitSplit.Graph.Order
import CommitSplit.Json.Printer

/-!
# Answers

What a command found out, and how it is written: as lines for a reader, or as indented JSON.
-/

namespace CommitSplit.CommandLine

inductive Answer
  | report (report : Report) (json : Bool)
  | graph (graph : Graph) (json : Bool)
  | order (paths : List String)
  | version
  deriving DecidableEq

/-- The version of the program. -/
def version : String :=
  "0.1.0"

/-- A line that is indented. -/
def indented (text : String) : String :=
  "  " ++ text

/-- A titled list behind a blank line; nothing without items. -/
def titled (title : String) (items : List String) : List String :=
  if items = [] then [] else ["", title] ++ items.map indented

/-- The first line of a report. -/
def reportTitle (r : Report) : String :=
  "Mode: " ++ r.mode.name ++ " (" ++ toString r.totalFiles ++ " files, " ++
    toString r.groups.length ++ " groups, " ++ toString r.elapsedMillis ++ "ms)"

/-- A group behind a blank line, with its files in the order of commits. -/
def groupLines (g : Group) : List String :=
  ["", g.id ++ " [" ++ g.risk.name ++ "] " ++ g.rationale] ++ g.order.map indented

def reportLines (r : Report) : List String :=
  [reportTitle r] ++ r.groups.flatMap groupLines ++ titled "Excluded:" r.excluded ++
    titled "Warnings:" (r.warnings.map fun w => "- " ++ w) ++
    titled "Validate with:" r.validation

def graphLines (g : Graph) : List String :=
  [toString g.size ++ " nodes, " ++ toString g.edgeCount ++ " edges"] ++
    (g.entries.flatMap fun e => e.targets.map fun target =>
      indented (e.node.path ++ " -> " ++ target)) ++
    g.cycles.map Complaint.cycleLine

/-- The lines of an answer. -/
def Answer.lines : Answer → List String
  | report r json => if json then [r.toJson.pretty] else reportLines r
  | graph g json => if json then [g.toJson.pretty] else graphLines g
  | order paths => paths
  | version => ["Changegraph v" ++ CommandLine.version]

/-- The answer with the time that it took. -/
def Answer.timed (nanos : Nat) : Answer → Answer
  | report r json => report { r with elapsedNanos := nanos } json
  | answer => answer

end CommitSplit.CommandLine
