import CommitSplit.Exclude

/-!
# Change sets

Of the changes that the caller names, those take part whose path is not empty, was not named before
and is not excluded. The first change of a path is the one that counts.
-/

namespace CommitSplit

structure ChangeSet where
  /-- The changes that take part, under their normal paths. -/
  changes : List Change
  excluded : List String
  /-- The number of changes whose path is empty. -/
  blank : Nat
  deriving DecidableEq, Inhabited

namespace ChangeSet

def empty : ChangeSet :=
  ⟨[], [], 0⟩

/-- Sorts one change in. -/
def add (exclusion : Exclusion) (set : ChangeSet) (change : Change) : ChangeSet :=
  let path := Path.normalize change.path
  if path = "" then { set with blank := set.blank + 1 }
  else if path ∈ set.excluded ∨ path ∈ set.changes.map Change.path then set
  else if exclusion.excludes path then { set with excluded := set.excluded ++ [path] }
  else { set with changes := set.changes ++ [{ change with path := path }] }

/-- The changes that take part. -/
def collect (exclusion : Exclusion) (changes : List Change) : ChangeSet :=
  changes.foldl (add exclusion) empty

def paths (set : ChangeSet) : List String :=
  set.changes.map Change.path

end ChangeSet

end CommitSplit
