import CommitSplit.Files.Tree

/-!
# Earlier revisions

A revision is known by a name when it is looked up from a directory. A known one holds files; a path
leads from its top to a file, unless it begins with a dot segment, which starts at the directory.
-/

namespace CommitSplit

/-- The content of the files of one revision. -/
abbrev Revision :=
  String → Option (List UInt8)

/-- The revision of a name, looked up from a directory. -/
abbrev History :=
  (directory name : String) → Option Revision

namespace History

/-- No revision is known. -/
def none : History :=
  fun _ _ => Option.none

end History

namespace FileTree

/-- Goes on by one segment, going back up no further than to the top. -/
def goTo (here : Option (List String)) (segment : String) : Option (List String) :=
  if segment = "" || segment = "." then here
  else if segment = ".." then here.bind fun s => if s = [] then none else some s.dropLast
  else here.map fun s => s ++ [segment]

/-- The content of a file of a tree, given the directory from which dot segments start. -/
def contentFrom (tree : FileTree) (directory : List String) (path : String) :
    Option (List UInt8) :=
  let relative := match segments path with
    | "." :: _ :: _ => true
    | ".." :: _ :: _ => true
    | _ => false
  let place :=
    if Path.isAbsolute path then none
    else (segments path).foldl goTo (some (if relative then directory else []))
  place.bind fun here =>
    match tree.statusAt (.inside here) with
    | .file bytes => some bytes
    | _ => none

/-- The name of the latest revision. -/
def latest : String :=
  "HEAD"

/-- A working directory whose only revision is the latest one. It is known from the directories
inside. -/
def historyOf (working revision : FileTree) : History :=
  fun directory name =>
    match working.walk directory with
    | .ok (.inside here) => if name = latest then some (revision.contentFrom here) else none
    | _ => none

end FileTree

end CommitSplit
