import CommitSplit.Failure
import CommitSplit.Glob.Match
import CommitSplit.Glob.Parser

/-!
# Excluded files

The globs of an exclusion are read once; a file is excluded when one of them matches its path.
-/

namespace CommitSplit

/-- The globs whose files are left out. -/
structure Exclusion where
  globs : List Glob
  deriving Inhabited

namespace Exclusion

/-- Excludes nothing. -/
def empty : Exclusion :=
  ⟨[]⟩

/-- Reads one pattern. -/
def readGlob (pattern : String) : Except Failure Glob :=
  (Glob.parse pattern).mapError fun fault => .invalidPattern pattern fault

/-- Reads the patterns; the first bad one is the failure. -/
def ofPatterns (patterns : List String) : Except Failure Exclusion :=
  (patterns.mapM readGlob).map Exclusion.mk

/-- Whether the file at a path is left out. -/
def excludes (e : Exclusion) (path : String) : Bool :=
  e.globs.any fun glob => glob.accepts path

end Exclusion

end CommitSplit
