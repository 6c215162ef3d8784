import CommitSplit.Files.Basic

/-!
# File trees

A tree holds what lies in the working directory. Of the directories above it, and of the root of the
file system, only that they exist is known. A path is walked segment by segment: every segment needs
a directory to stand in, so a path through a file leads nowhere even if it goes back up.
-/

namespace CommitSplit

/-- Files and empty directories by the segments that lead to them; all directories on the way exist
too. -/
structure FileTree where
  entries : List (List String × Option (List UInt8))
  deriving Inhabited

namespace FileTree

/-- Where a walk stands. -/
inductive Place
  | inside (segments : List String)
  | above (levels : Nat)
  | top
  deriving DecidableEq

/-- The longest name of a file, in bytes. -/
def maxNameLength : Nat :=
  255

/-- The length from which on a path is refused, in bytes. -/
def pathLimit : Nat :=
  4096

/-- The segments of a path as texts. -/
def segments (path : String) : List String :=
  (Text.splitOn '/' path.toList).map String.ofList

/-- A tree from paths with their contents; no content makes an empty directory. -/
def ofList (files : List (String × Option (List UInt8))) : FileTree :=
  ⟨files.map fun (path, content) => ((segments path).filter fun s => s ≠ "" && s ≠ ".", content)⟩

/-- What stands at a place. -/
def statusAt (tree : FileTree) : Place → FileStatus
  | .above _ => .directory
  | .top => .directory
  | .inside here =>
    match tree.entries.find? fun entry => entry.1 = here && entry.2.isSome with
    | some (_, some bytes) => .file bytes
    | _ =>
      if here = [] || tree.entries.any fun entry => here.isPrefixOf entry.1 then .directory
      else .unreachable .missing

/-- The place above. -/
def up : Place → Place
  | .top => .top
  | .above levels => .above (levels + 1)
  | .inside segments => if segments = [] then .above 1 else .inside segments.dropLast

/-- The place of a name in a directory. -/
def down (tree : FileTree) (place : Place) (name : String) : Except ReadFault Place :=
  if maxNameLength < name.utf8ByteSize then .error .nameTooLong
  else
    match place with
    | .inside here =>
      match tree.statusAt (.inside (here ++ [name])) with
      | .unreachable cause => .error cause
      | _ => .ok (.inside (here ++ [name]))
    | _ => .error .missing

/-- Goes on by one segment from a place, which has to be a directory. -/
def walkSegment (tree : FileTree) (place : Place) (segment : String) : Except ReadFault Place :=
  if (tree.statusAt place).isFile then .error .throughFile
  else if segment = "" || segment = "." then .ok place
  else if segment = ".." then .ok (up place)
  else tree.down place segment

/-- Walks a path from the working directory, or from the top if it is absolute. -/
def walk (tree : FileTree) (path : String) : Except ReadFault Place :=
  if '\x00' ∈ path.toList then .error .nulInName
  else if path = "" then .error .missing
  else if pathLimit ≤ path.utf8ByteSize then .error .nameTooLong
  else
    (segments path).foldlM tree.walkSegment
      (if Path.isAbsolute path then Place.top else Place.inside [])

/-- The files of a tree. -/
def files (tree : FileTree) : Files :=
  fun path =>
    match tree.walk path with
    | .ok place => tree.statusAt place
    | .error cause => .unreachable cause

end FileTree

end CommitSplit
