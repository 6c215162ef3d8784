import CommitSplit.Change.Basic

/-!
# Listings of changes

A listing has one change a line: a status, a tab and one path, or two for a rename or a copy. Only
the first letter of the status counts, so the score of a rename is not looked at. A copy is an
addition of its target and a change of type is a modification. Fields are trimmed, empty ones are
skipped, and further ones are ignored.
-/

namespace CommitSplit.Change

/-- What is wrong with a line of a listing. -/
inductive LineFault
  | emptyLine
  | missingPath
  | renameWithoutTarget
  | copyWithoutTarget
  | unknownStatus
  | emptyPath
  deriving DecidableEq

def LineFault.message : LineFault → String
  | emptyLine => "empty line"
  | missingPath => "missing path"
  | renameWithoutTarget => "rename without destination path"
  | copyWithoutTarget => "copy without destination path"
  | unknownStatus => "unknown status letter"
  | emptyPath => "empty path"

/-- A line that could not be read. -/
structure LineError where
  line : String
  fault : LineFault
  deriving DecidableEq

/-- The fields of a line that hold anything. -/
def fieldsOfLine (line : String) : List String :=
  ((Text.splitOn '\t' line.toList).map Text.trimChars |>.filter (· ≠ [])).map String.ofList

/-- The change that a status letter and its paths describe. -/
def ofStatus (status : Option Char) (first : String) (second : Option String) :
    Except LineFault Change :=
  match status, second with
  | some 'A', _ => .ok (added first)
  | some 'M', _ => .ok (modified first)
  | some 'T', _ => .ok (modified first)
  | some 'D', _ => .ok (deleted first)
  | some 'R', some target => .ok (renamed first target)
  | some 'R', none => .error .renameWithoutTarget
  | some 'C', some target => .ok (added target)
  | some 'C', none => .error .copyWithoutTarget
  | _, _ => .error .unknownStatus

/-- The change that the fields of a line describe. -/
def ofFields : List String → Except LineFault Change
  | [] => .error .emptyLine
  | [_] => .error .missingPath
  | status :: first :: further =>
    match ofStatus status.toList.head? first further.head? with
    | .error fault => .error fault
    | .ok change => if change.path = "" then .error .emptyPath else .ok change

/-- Reads one line of a listing. -/
def ofLine (line : String) : Except LineError Change :=
  (ofFields (fieldsOfLine line)).mapError fun fault => ⟨line, fault⟩

/-- Reads a listing; blank lines are skipped and the first bad line is the error. -/
def ofListing (text : String) : Except LineError (List Change) :=
  ((Text.lines text).filter fun line => !Text.isBlankText line).mapM ofLine

end CommitSplit.Change
