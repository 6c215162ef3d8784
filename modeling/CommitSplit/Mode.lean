import CommitSplit.Change.Basic
import CommitSplit.FirstSeen
import CommitSplit.Language

/-!
# Analysis modes

A simple analysis puts every file into a group of its own; a complex one builds the dependency
graph. Unless a mode is asked for, more than a given number of distinct files or any source file
call for the complex one.
-/

namespace CommitSplit

/-- How an analysis runs. -/
inductive Mode
  | simple | complex
  deriving DecidableEq, Inhabited

namespace Mode

def all : List Mode :=
  [simple, complex]

def name : Mode → String
  | simple => "simple"
  | complex => "complex"

end Mode

/-- The mode that is asked for. -/
inductive ModeRequest
  | auto | simple | complex
  deriving DecidableEq, Inhabited

namespace ModeRequest

def all : List ModeRequest :=
  [auto, simple, complex]

def name : ModeRequest → String
  | auto => "auto"
  | simple => "simple"
  | complex => "complex"

end ModeRequest

/-- The mode for changes, of which the simple mode takes at most `maxSimpleFiles`. -/
def selectMode (maxSimpleFiles : Nat) (changes : List Change) (request : ModeRequest) : Mode :=
  match request with
  | .simple => .simple
  | .complex => .complex
  | .auto =>
    let files := FirstSeen.of (changes.map Change.path)
    if maxSimpleFiles < files.length then .complex
    else if files.any fun path => (Language.ofPath path).isSource then .complex
    else .simple

end CommitSplit
