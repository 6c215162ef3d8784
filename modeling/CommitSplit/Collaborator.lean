import CommitSplit.Failure
import CommitSplit.Node

/-!
# Collaborators

An analysis does not read files itself. An edge source reports the dependencies of paths, and a
surface parser reports the surface of one file. Either may fail, and either may ask for the analysis
to be cancelled; both are part of the outcome of a call, so a collaborator is a function.
-/

namespace CommitSplit

/-- The answer of a collaborator, and whether it asks for cancellation. -/
structure Outcome (α : Type) where
  answer : Except Fault α
  cancels : Bool

namespace Outcome

/-- An answer without anything else. -/
def plain (answer : Except Fault α) : Outcome α :=
  ⟨answer, false⟩

end Outcome

/-- The direct dependencies of one file. -/
structure ScannedModule where
  path : String
  dependencies : List String
  deriving DecidableEq, Inhabited

namespace ScannedModule

def toJson (m : ScannedModule) : Json :=
  .obj [("path", .str m.path), ("dependencies", .strings m.dependencies)]

def ofJson? (j : Json) : Option ScannedModule := do
  let fields ← j.fields? 2
  let path ← fields.required? 0 "path" Json.str?
  let dependencies ← fields.required? 1 "dependencies" Json.strings?
  return { path, dependencies }

end ScannedModule

/-- Reports the dependencies of paths. -/
abbrev EdgeSource :=
  List String → Outcome (List ScannedModule)

/-- Reports the surface of a file. -/
structure SurfaceParser where
  /-- Whether the parser understands the file at all. -/
  supports : String → Bool
  parse : String → Outcome Surface

namespace EdgeSource

/-- The dependencies that a table lists for a path, under any spelling of it. -/
def listed (table : List (String × List String)) (path : String) : List String :=
  (table.filter fun row => Path.normalize row.1 = Path.normalize path).flatMap fun row =>
    row.2.map Path.normalize

/-- An edge source that looks dependencies up in a table. -/
def ofTable (table : List (String × List String)) : EdgeSource :=
  fun paths => .plain (.ok (paths.map fun path => ⟨path, listed table path⟩))

end EdgeSource

namespace SurfaceParser

/-- A parser that looks surfaces up in a table, whose later rows win. It supports every file and
fails where the table has no row. -/
def ofTable (table : List (String × Surface)) : SurfaceParser where
  supports _ := true
  parse path :=
    let row := table.reverse.find? fun row => Path.normalize row.1 = Path.normalize path
    .plain <|
      match row with
      | some (_, surface) => .ok surface
      | none => .error (.noSurface path)

/-- Only source files that the parser understands are enhanced. -/
def canEnhance (parser : SurfaceParser) (node : Node) : Bool :=
  node.kind = .source && parser.supports node.path

end SurfaceParser

/-- A node for which the parser failed, with the reason. -/
structure SkippedEnhancement where
  path : String
  cause : Fault
  deriving DecidableEq

def SkippedEnhancement.message (s : SkippedEnhancement) : String :=
  "enhancement skipped for " ++ s.path ++ ": " ++ s.cause.headline

/-- The node with the surface that the parser answered; where it failed, the node as it was. -/
def Node.enhanceOrKeep (node : Node) (answer : Except Fault Surface) :
    Node × Option SkippedEnhancement :=
  match answer with
  | .ok surface => (node.withSurface surface, none)
  | .error cause => (node, some ⟨node.path, cause⟩)

end CommitSplit
