import CommitSplit.Failure

/-!
# Complaints

Why a command ends without an answer. Arguments that are not understood are told apart from every
other complaint by the exit status.
-/

namespace CommitSplit.CommandLine

inductive Complaint
  | usage
  | unreadInput
  | unreadListing (file : String)
  | badLine (error : Change.LineError)
  | noChanges
  | unreadConfig (file : String)
  | badConfig (file : String)
  /-- The root is no directory in which a revision could be looked up. -/
  | noHistory
  | unknownRevision (name : String)
  | baseline (fault : Fault)
  | failed (failure : Failure)
  /-- The cycles that leave no order. -/
  | blocked (cycles : List (List String))
  deriving DecidableEq

namespace Complaint

def message : Complaint → String
  | usage => "arguments not understood: give a command and its options"
  | unreadInput => "Failed to read name-status from stdin"
  | unreadListing file => "Failed to read name-status file " ++ file
  | badLine error => (Failure.invalidChange error).message
  | noChanges => "No changes given: pass file paths or --name-status"
  | unreadConfig file => "Failed to read " ++ file
  | badConfig file => "Invalid config in " ++ file
  | noHistory => "Failed to run git"
  | unknownRevision name => "Unknown git revision " ++ name
  | baseline fault => fault.headline
  | failed failure => failure.message
  | blocked cycles => toString cycles.length ++ " circular dependencies block ordering"

/-- A cycle as it is shown. -/
def cycleLine (cycle : List String) : String :=
  "cycle: " ++ String.intercalate " -> " cycle

/-- What is said in front of the message. -/
def details : Complaint → List String
  | blocked cycles => cycles.map cycleLine
  | _ => []

def lines (c : Complaint) : List String :=
  c.details ++ ["Error: " ++ c.message]

/-- The exit status: two for the usage, one for everything else. -/
def status : Complaint → UInt8
  | usage => 2
  | _ => 1

end Complaint

end CommitSplit.CommandLine
