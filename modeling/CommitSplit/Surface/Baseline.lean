import CommitSplit.Collaborator
import CommitSplit.Files.Basic
import CommitSplit.Surface.Grammar

/-!
# Surfaces of files

A parser that reads files below a root. For some files it knows what they exported before: their
baseline. The surface of a file counts as changed if it has a baseline and exports other names than
that lists.
-/

namespace CommitSplit

/-- Exports of files before a change, by normal path; the latest entry comes first. -/
structure Baselines where
  entries : List (String × List String)
  deriving DecidableEq, Inhabited

namespace Baselines

def empty : Baselines :=
  ⟨[]⟩

/-- Records what a file exported, in place of what was recorded of it before. -/
def insert (b : Baselines) (path : String) (exports : List String) : Baselines :=
  ⟨(Path.normalize path, exports) :: b.entries⟩

/-- Records what a file exported, read from its content. -/
def insertText (b : Baselines) (path content : String) : Except Fault Baselines :=
  match SurfaceNames.extract path content with
  | .ok names => .ok (b.insert path names.exports)
  | .error cause => .error (.baseline path cause)

/-- What the file at a normal path exported. -/
def get? (b : Baselines) (path : String) : Option (List String) :=
  b.entries.lookup path

/-- Whether the exports of the file at a normal path differ from its baseline. -/
def differs (b : Baselines) (path : String) (exports : List String) : Bool :=
  (b.get? path).any fun before => !SurfaceNames.sameNames exports before

end Baselines

/-- The surface of a file below a root. -/
def Surface.ofFile (files : Files) (root : String) (baselines : Baselines) (path : String) :
    Except Fault Surface := do
  let path := Path.normalize path
  let content ← (files.below root path).text.mapError (.unreadable (Path.join root path))
  let names ← SurfaceNames.extract path content
  return ⟨names.imports, names.exports, baselines.differs path names.exports⟩

/-- A parser of the files below a root; it supports those that have a grammar. -/
def SurfaceParser.ofFiles (files : Files) (root : String) (baselines : Baselines) :
    SurfaceParser where
  supports path := (Grammar.ofPath? path).isSome
  parse path := .plain (Surface.ofFile files root baselines path)

end CommitSplit
