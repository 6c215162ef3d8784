import CommitSplit.Surface.Rust.Item

/-!
# The surface of Rust

The imports are the used paths and the modules in other files. The exports are the items that are
public without restriction, among them used paths, and the public functions that a type implements
for itself.
-/

namespace CommitSplit.Rust

def Declaration.imports (d : Declaration) : List String :=
  match d.item with
  | .use path => [path]
  | .module name here => if here then [] else [name]
  | _ => []

/-- The public functions in the body of an implementation. -/
def publicFunctions (body : List Piece) : List String :=
  (declarations body).filterMap fun d =>
    match d.item with
    | .function name => if d.isPublic then some name else none
    | _ => none

def Declaration.exports (d : Declaration) : List String :=
  match d.item with
  | .inherent type body => (publicFunctions body).map fun name => type ++ "::" ++ name
  | .use name | .module name _ | .function name | .named name => if d.isPublic then [name] else []
  | .other => []

/-- The surface of a source text. -/
def read (content : List Char) : SurfaceNames :=
  let ds := declarations (pieces content)
  SurfaceNames.of (ds.flatMap Declaration.imports) (ds.flatMap Declaration.exports)

end CommitSplit.Rust
