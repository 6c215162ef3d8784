import CommitSplit.Change.Listing
import CommitSplit.Glob.Basic
import CommitSplit.Risk

/-!
# Failures

Why an analysis ends without a result. Each failure is the value of its cause; its wording is one
function of that value. Only cycles that block an order describe the graph and not a broken run.
-/

namespace CommitSplit

/-- Why a file could not be read. -/
inductive ReadFault
  | missing
  | directory
  | throughFile
  | nameTooLong
  | nulInName
  | notText
  | denied
  deriving DecidableEq, Inhabited

def ReadFault.message : ReadFault → String
  | missing => "No such file or directory (os error 2)"
  | directory => "Is a directory (os error 21)"
  | throughFile => "Not a directory (os error 20)"
  | nameTooLong => "File name too long (os error 36)"
  | nulInName => "file name contained an unexpected NUL byte"
  | notText => "stream did not contain valid UTF-8"
  | denied => "Permission denied (os error 13)"

/-- Why a collaborator could not answer. -/
inductive Fault
  /-- The collaborator's own words. -/
  | reported (text : String)
  | unreadable (file : String) (cause : ReadFault)
  | noGrammar (path : String)
  | noSurface (path : String)
  /-- The surface that a file had before could not be extracted. -/
  | baseline (path : String) (cause : Fault)
  deriving DecidableEq, Inhabited

namespace Fault

/-- What failed, then why, then why that failed. -/
def chain : Fault → List String
  | reported text => [text]
  | unreadable file cause => ["Failed to read " ++ file, cause.message]
  | noGrammar path => ["No surface grammar for " ++ path]
  | noSurface path => ["no module surface registered for " ++ path]
  | baseline path cause => ("Failed to extract baseline surface of " ++ path) :: cause.chain

/-- What failed. -/
def headline (f : Fault) : String :=
  f.chain.headD ""

/-- The whole chain in one line. -/
def message (f : Fault) : String :=
  String.intercalate ": " f.chain

end Fault

/-- What is wrong with a grouping. -/
inductive GroupDefect
  | noFiles (id : String)
  | stranger (id file : String)
  | shared (file first second : String)
  | wrongRisk (id : String) (reported actual : Risk)
  | missing (files : List String)
  deriving DecidableEq

namespace GroupDefect

def message : GroupDefect → String
  | noFiles id => id ++ " has no files"
  | stranger id file => id ++ " contains " ++ file ++ ", which is not a changed file"
  | shared file first second => file ++ " appears in both " ++ first ++ " and " ++ second
  | wrongRisk id reported actual =>
    id ++ " reports " ++ reported.name ++ " risk, members aggregate to " ++ actual.name
  | missing files => "changed files missing from every group: " ++ String.intercalate ", " files

/-- Whether a file was lost, shared or invented, and not only described wrongly. -/
def breaksPartition : GroupDefect → Bool
  | stranger .. | shared .. | missing .. => true
  | noFiles .. | wrongRisk .. => false

end GroupDefect

inductive Failure
  | graphBuild (cause : Fault)
  | cyclesBlockOrder (cycles : List (List String))
  | grouping (defect : GroupDefect)
  | cancelled
  | invalidPattern (pattern : String) (fault : Glob.Fault)
  | invalidChange (error : Change.LineError)
  deriving DecidableEq

namespace Failure

/-- The name of the kind of failure. -/
def kind : Failure → String
  | graphBuild _ => "GraphBuild"
  | cyclesBlockOrder _ => "CycleBlockingSort"
  | grouping defect => if defect.breaksPartition then "GroupingInvariant" else "Validation"
  | cancelled => "Cancelled"
  | invalidPattern .. => "InvalidPattern"
  | invalidChange _ => "InvalidChange"

def message : Failure → String
  | graphBuild cause => "failed to build dependency graph: " ++ cause.headline
  | cyclesBlockOrder cycles =>
    "circular dependency blocks topological ordering (" ++ toString cycles.length ++ " cycle(s))"
  | grouping defect =>
    (if defect.breaksPartition then "grouping invariant violated: "
      else "group validation failed: ") ++ defect.message
  | cancelled => "analysis cancelled"
  | invalidPattern pattern fault =>
    "invalid exclude pattern \x60" ++ pattern ++ "\x60: error parsing glob '" ++ pattern ++ "': " ++
      fault.message
  | invalidChange error =>
    "invalid change line \x60" ++ error.line ++ "\x60: " ++ error.fault.message

/-- Whether the run is broken. -/
def isFatal : Failure → Bool
  | cyclesBlockOrder _ => false
  | _ => true

end Failure

end CommitSplit
