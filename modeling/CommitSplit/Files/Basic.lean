import CommitSplit.Failure
import CommitSplit.Path.Name
import CommitSplit.Text.Utf8

/-!
# Files

What the library sees of a file system is one answer per path: a file with its bytes, a directory,
or the reason why there is nothing to see.
-/

namespace CommitSplit

inductive FileStatus
  | file (bytes : List UInt8)
  | directory
  | unreachable (cause : ReadFault)
  deriving DecidableEq, Inhabited

/-- The files as paths lead to them. -/
abbrev Files :=
  String → FileStatus

namespace FileStatus

def isFile : FileStatus → Bool
  | file _ => true
  | _ => false

/-- Whether there is a file or a directory. -/
def isThere : FileStatus → Bool
  | unreachable _ => false
  | _ => true

/-- The content as text. -/
def text : FileStatus → Except ReadFault String
  | file bytes =>
    match Text.Utf8.text? bytes with
    | some s => .ok s
    | none => .error .notText
  | directory => .error .directory
  | unreachable cause => .error cause

end FileStatus

namespace Files

/-- What is at a path below a root. -/
def below (files : Files) (root path : String) : FileStatus :=
  files (Path.join root path)

end Files

end CommitSplit
