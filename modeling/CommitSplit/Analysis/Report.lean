import CommitSplit.Group.Basic
import CommitSplit.Mode
import CommitSplit.Path.Normal

/-!
# Reports

The report of an analysis: its groups, what was left out and what the reader should know. Time is
kept in nanoseconds and written in whole milliseconds.
-/

namespace CommitSplit

structure Report where
  mode : Mode
  groups : List Group
  totalFiles : Nat
  elapsedNanos : Nat
  warnings : List String
  cycles : List (List String)
  excluded : List String
  validation : List String
  deriving DecidableEq, Inhabited

namespace Report

/-- The nanoseconds in a millisecond. -/
def nanosPerMilli : Nat :=
  1000000

/-- The elapsed time in whole milliseconds, as a 64-bit count. -/
def elapsedMillis (r : Report) : Nat :=
  r.elapsedNanos / nanosPerMilli % 18446744073709551616

def highRiskGroups (r : Report) : List Group :=
  r.groups.filter fun group => group.risk = .high

/-- The group that holds a path in any spelling. -/
def groupOf? (r : Report) (path : String) : Option Group :=
  let path := Path.normalize path
  r.groups.find? fun group => path ∈ group.files

/-- A report as data, with the elapsed time only on demand. -/
def members (r : Report) (elapsed : List (String × Json)) : List (String × Json) :=
  [("mode", .str r.mode.name), ("groups", .list Group.toJson r.groups),
      ("totalFiles", .nat r.totalFiles)] ++ elapsed ++
    [("warnings", .strings r.warnings), ("cycles", .list Json.strings r.cycles),
      ("excludedFiles", .strings r.excluded), ("validationCommands", .strings r.validation)]

def toJson (r : Report) : Json :=
  .obj (r.members [("elapsedMs", .nat r.elapsedMillis)])

/-- The part of a report that does not depend on a clock. -/
def untimedJson (r : Report) : Json :=
  .obj (r.members [] ++ [("highRisk", .strings (r.highRiskGroups.map Group.id))])

def ofJson? (j : Json) : Option Report := do
  let fields ← j.fields? 8
  let mode ← fields.required? 0 "mode" (Json.constant? Mode.all Mode.name)
  let groups ← fields.required? 1 "groups" (Json.list? Group.ofJson?)
  let totalFiles ← fields.required? 2 "totalFiles" Json.long?
  let elapsedMillis ← fields.required? 3 "elapsedMs" Json.long?
  let warnings ← fields.required? 4 "warnings" Json.strings?
  let cycles ← fields.required? 5 "cycles" (Json.list? Json.strings?)
  let excluded ← fields.required? 6 "excludedFiles" Json.strings?
  let validation ← fields.required? 7 "validationCommands" Json.strings?
  return {
    mode, groups, totalFiles, elapsedNanos := elapsedMillis * nanosPerMilli, warnings, cycles,
    excluded, validation }

end Report

end CommitSplit
