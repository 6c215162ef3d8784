import CommitSplit.Change.Basic
import CommitSplit.NodeKind
import CommitSplit.Risk
import CommitSplit.Surface

/-!
# Nodes

A node is what the dependency graph knows about one file. Without a surface its risk is the baseline
of its kind and of what happened to it; a changed surface raises the risk to high and no surface
lowers it.
-/

namespace CommitSplit

structure Node where
  path : String
  kind : NodeKind
  language : Language
  imports : List String
  exports : List String
  surfaceChanged : Bool
  risk : Risk
  deriving DecidableEq, Inhabited

namespace Node

/-- Configuration is medium risk, and so is a source file that is gone; all else is low. -/
def baselineRisk (kind : NodeKind) (change : ChangeKind) : Risk :=
  match kind, change with
  | .config, _ => .medium
  | .source, .deleted => .medium
  | _, _ => .low

/-- The node of a file to which `change` happened. -/
def ofChangeKind (path : String) (change : ChangeKind) : Node :=
  let path := Path.normalize path
  let kind := NodeKind.ofPath path
  { path, kind, language := Language.ofPath path, imports := [], exports := [],
    surfaceChanged := false, risk := baselineRisk kind change }

/-- The node of a file about which nothing more is known; it counts as modified. -/
def new (path : String) : Node :=
  ofChangeKind path .modified

def ofChange (c : Change) : Node :=
  ofChangeKind c.path c.kind

/-- The node with the surface of its file. -/
def withSurface (n : Node) (s : Surface) : Node :=
  { n with
    imports := s.imports, exports := s.exports, surfaceChanged := s.changed,
    risk := if s.changed then .high else n.risk }

def toJson (n : Node) : Json :=
  .obj
    [("path", .str n.path), ("nodeType", .str n.kind.name), ("language", .str n.language.name),
      ("imports", .strings n.imports), ("exports", .strings n.exports),
      ("apiSurfaceChanges", .bool n.surfaceChanged), ("riskLevel", .str n.risk.name)]

def ofJson? (j : Json) : Option Node := do
  let fields ← j.fields? 7
  let path ← fields.required? 0 "path" Json.str?
  let kind ← fields.required? 1 "nodeType" (Json.constant? NodeKind.all NodeKind.name)
  let language ← fields.required? 2 "language" (Json.constant? Language.all Language.name)
  let imports ← fields.required? 3 "imports" Json.strings?
  let exports ← fields.required? 4 "exports" Json.strings?
  let surfaceChanged ← fields.required? 5 "apiSurfaceChanges" Json.bool?
  let risk ← fields.required? 6 "riskLevel" (Json.constant? Risk.all Risk.name)
  return { path, kind, language, imports, exports, surfaceChanged, risk }

end Node

end CommitSplit
