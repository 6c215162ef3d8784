import CommitSplit.Path.Name

/-!
# Languages

The language of a file is told by the extension of its name; a name that begins like a Dockerfile
counts when the extension says nothing.
-/

namespace CommitSplit

inductive Language
  | rust | typeScript | javaScript | python | go | java | c | cpp
  | yaml | toml | json | css | html | markdown | dockerfile | other
  deriving DecidableEq, Inhabited

namespace Language

def all : List Language :=
  [rust, typeScript, javaScript, python, go, java, c, cpp, yaml, toml, json, css, html, markdown,
    dockerfile, other]

def name : Language → String
  | rust => "rust"
  | typeScript => "typescript"
  | javaScript => "javascript"
  | python => "python"
  | go => "go"
  | java => "java"
  | c => "c"
  | cpp => "cpp"
  | yaml => "yaml"
  | toml => "toml"
  | json => "json"
  | css => "css"
  | html => "html"
  | markdown => "markdown"
  | dockerfile => "dockerfile"
  | other => "other"

/-- The extensions of a language, in lower case as they have to be written. -/
def extensions : Language → List String
  | rust => ["rs"]
  | typeScript => ["ts", "tsx", "mts", "cts"]
  | javaScript => ["js", "jsx", "mjs", "cjs"]
  | python => ["py", "pyi"]
  | go => ["go"]
  | java => ["java"]
  | c => ["c", "h"]
  | cpp => ["cpp", "cc", "cxx", "hpp", "hh"]
  | yaml => ["yml", "yaml"]
  | toml => ["toml"]
  | json => ["json", "jsonc"]
  | css => ["css", "scss", "sass", "less"]
  | html => ["html", "htm"]
  | markdown => ["md", "mdx"]
  | dockerfile => []
  | other => []

/-- The language that an extension stands for. -/
def ofExtension? (extension : String) : Option Language :=
  all.find? fun l => extension ∈ l.extensions

/-- Whether a file name belongs to a Dockerfile, perhaps one with a variant behind a dot. -/
def isDockerfileName (name : String) : Bool :=
  name = "Dockerfile" || "Dockerfile.".toList.isPrefixOf name.toList

/-- The language of a file. -/
def ofPath (path : String) : Language :=
  match (Path.extension? path).bind ofExtension? with
  | some language => language
  | none => if (Path.name? path).any isDockerfileName then dockerfile else other

/-- Whether files of the language have imports and exports. -/
def isSource : Language → Bool
  | rust | typeScript | javaScript | python | go | java | c | cpp => true
  | _ => false

end Language

end CommitSplit
