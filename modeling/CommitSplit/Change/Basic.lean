import CommitSplit.Json.Decode
import CommitSplit.Path.Normal

/-!
# Changes

A change says what happened to one file. The constructors normalize the path; a change that is read
from data keeps the path as it was written.
-/

namespace CommitSplit

inductive ChangeKind
  | added | modified | deleted | renamed
  deriving DecidableEq, Inhabited

namespace ChangeKind

def all : List ChangeKind :=
  [added, modified, deleted, renamed]

def name : ChangeKind → String
  | added => "added"
  | modified => "modified"
  | deleted => "deleted"
  | renamed => "renamed"

end ChangeKind

/-- Counts of lines. -/
structure LineDelta where
  insertions : Nat
  deletions : Nat
  deriving DecidableEq, Inhabited

structure Change where
  path : String
  kind : ChangeKind
  /-- Where a renamed file was. -/
  previousPath : Option String
  delta : Option LineDelta
  deriving DecidableEq, Inhabited

namespace Change

/-- A change of the file at a path in any spelling. -/
def new (path : String) (kind : ChangeKind) : Change :=
  ⟨Path.normalize path, kind, none, none⟩

def added (path : String) : Change :=
  new path .added

def modified (path : String) : Change :=
  new path .modified

def deleted (path : String) : Change :=
  new path .deleted

def renamed (source target : String) : Change :=
  { new target .renamed with previousPath := some (Path.normalize source) }

/-- The change with counts of lines. -/
def withDelta (c : Change) (insertions deletions : Nat) : Change :=
  { c with delta := some ⟨insertions, deletions⟩ }

end Change

namespace LineDelta

def toJson (d : LineDelta) : Json :=
  .obj [("insertions", .nat d.insertions), ("deletions", .nat d.deletions)]

def ofJson? (j : Json) : Option LineDelta := do
  let fields ← j.fields? 2
  let insertions ← fields.required? 0 "insertions" Json.word?
  let deletions ← fields.required? 1 "deletions" Json.word?
  return { insertions, deletions }

end LineDelta

namespace Change

/-- A change as data; an absent previous path or delta is left out. -/
def toJson (c : Change) : Json :=
  .obj <|
    [("path", .str c.path), ("kind", .str c.kind.name)] ++
      (c.previousPath.map fun path => ("previousPath", Json.str path)).toList ++
      (c.delta.map fun delta => ("delta", delta.toJson)).toList

def ofJson? (j : Json) : Option Change := do
  let fields ← j.fields? 4
  let path ← fields.required? 0 "path" Json.str?
  let kind ← fields.required? 1 "kind" (Json.constant? ChangeKind.all ChangeKind.name)
  let previousPath ← fields.orElse? 2 "previousPath" (Json.optional? Json.str?) none
  let delta ← fields.orElse? 3 "delta" (Json.optional? LineDelta.ofJson?) none
  return { path, kind, previousPath, delta }

end Change

end CommitSplit
