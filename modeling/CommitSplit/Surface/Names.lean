import CommitSplit.FirstSeen
import CommitSplit.Text.Blank

/-!
# Imports and exports of a source text

What a reader finds in one source text: the modules it imports and the names it exports, each once,
in first-seen order, and never an empty text.
-/

namespace CommitSplit

structure SurfaceNames where
  imports : List String
  exports : List String
  deriving DecidableEq, Inhabited

namespace SurfaceNames

def empty : SurfaceNames :=
  ⟨[], []⟩

/-- The names that are not empty, each once. -/
def tidy (names : List String) : List String :=
  FirstSeen.of (names.filter (· ≠ ""))

/-- From all names that a reader meets, in order. -/
def of (imports exports : List String) : SurfaceNames :=
  ⟨tidy imports, tidy exports⟩

/-- Whether two lists hold the same names, in whatever order. -/
def sameNames (xs ys : List String) : Bool :=
  xs.all (· ∈ ys) && ys.all (· ∈ xs)

end SurfaceNames

/-- Whether a character is one of the quotation marks of any language. -/
def isQuote (c : Char) : Bool :=
  c = '\x22' || c = '\x27' || c = '\x60'

/-- A literal without the quotation marks at both ends. -/
def unquote (literal : String) : String :=
  String.ofList (Text.dropEndWhile isQuote (literal.toList.dropWhile isQuote))

end CommitSplit
