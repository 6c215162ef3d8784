import CommitSplit.Failure
import CommitSplit.Path.Name
import CommitSplit.Surface.Python.Reader
import CommitSplit.Surface.Rust.Reader
import CommitSplit.Surface.Script.Reader

/-!
# Grammars

Of some languages the imports and exports can be read off a source text. The grammar is chosen by
the extension of a file, as it is written.
-/

namespace CommitSplit

inductive Grammar
  | typeScript | tsx | javaScript | rust | python
  deriving DecidableEq, Inhabited

namespace Grammar

def all : List Grammar :=
  [typeScript, tsx, javaScript, rust, python]

def name : Grammar → String
  | typeScript => "TypeScript"
  | tsx => "Tsx"
  | javaScript => "JavaScript"
  | rust => "Rust"
  | python => "Python"

def extensions : Grammar → List String
  | typeScript => ["ts", "mts", "cts"]
  | tsx => ["tsx"]
  | javaScript => ["js", "jsx", "mjs", "cjs"]
  | rust => ["rs"]
  | python => ["py", "pyi"]

/-- The grammar of a file. -/
def ofPath? (path : String) : Option Grammar :=
  (Path.extension? path).bind fun extension => all.find? fun g => extension ∈ g.extensions

/-- Reads the imports and exports of a source text. -/
def read : Grammar → List Char → SurfaceNames
  | typeScript => Script.read .typed
  | tsx => Script.read .typedWithElements
  | javaScript => Script.read .plain
  | rust => Rust.read
  | python => Python.read

end Grammar

/-- The imports and exports of the content of a file. -/
def SurfaceNames.extract (path content : String) : Except Fault SurfaceNames :=
  match Grammar.ofPath? path with
  | some g => .ok (g.read content.toList)
  | none => .error (.noGrammar path)

end CommitSplit
