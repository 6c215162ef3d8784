import CommitSplit.Collaborator
import CommitSplit.Files.Basic
import CommitSplit.FirstSeen
import CommitSplit.Imports.Specifier

/-!
# Scanning files for dependencies

The scanner is an edge source over files. It reads the files in languages it knows, finds their
specifiers, and takes for each specifier the first candidate that is asked for in the same scan or
is a file. A file that is missing has no dependencies; any other trouble ends the scan.
-/

namespace CommitSplit

/-- Where a specifier may lead, and where it leads when there is no file. -/
structure Candidates where
  tried : List String
  fallback : String
  deriving DecidableEq

namespace Specifier

/-- The extensions that are tried for a relative specifier, in order. -/
def scriptExtensions : List String :=
  ["ts", "tsx", "js", "jsx", "mjs", "cjs"]

/-- The candidates of a specifier in a file. -/
def candidates (file : String) : Specifier → Candidates
  | bare name => ⟨[], name⟩
  | relative written =>
    let base := Path.resolve file written
    ⟨base :: scriptExtensions.map (fun ext => base ++ "." ++ ext) ++
        scriptExtensions.map (fun ext => base ++ "/index." ++ ext), base⟩
  | pythonModule base => ⟨[base ++ ".py", base ++ "/__init__.py"], base⟩
  | rustModule base => ⟨[base ++ ".rs", base ++ "/mod.rs"], base ++ ".rs"⟩

/-- The specifiers of a file. -/
def ofContent (language : Language) (path content : String) : List Specifier :=
  match language with
  | .typeScript | .javaScript => inScript content.toList
  | .python => inPython path content.toList
  | .rust => inRust path content.toList
  | _ => []

end Specifier

/-- A scanner of the files below a root. -/
structure Scanner where
  files : Files
  root : String

namespace Scanner

/-- Whether files of the language are read. -/
def reads : Language → Bool
  | .typeScript | .javaScript | .python | .rust => true
  | _ => false

/-- Whether a path is asked for or is a file. -/
def isKnown (s : Scanner) (requested : List String) (path : String) : Bool :=
  path ∈ requested || (s.files.below s.root path).isFile

/-- The path that a specifier leads to. -/
def resolve (s : Scanner) (requested : List String) (file : String) (specifier : Specifier) :
    String :=
  let c := specifier.candidates file
  (c.tried.find? (s.isKnown requested)).getD c.fallback

/-- The content of a file; one that is missing counts as empty. -/
def content (s : Scanner) (path : String) : Except Fault String :=
  match (s.files.below s.root path).text with
  | .ok text => .ok text
  | .error .missing => .ok ""
  | .error cause => .error (.unreadable (Path.join s.root path) cause)

/-- The dependencies of one file in the order of its imports. -/
def dependencies (s : Scanner) (requested : List String) (path : String) :
    Except Fault (List String) :=
  let language := Language.ofPath path
  if reads language then
    (s.content path).map fun text =>
      FirstSeen.of
        (((Specifier.ofContent language path text).map (s.resolve requested path)).filter (· ≠ ""))
  else .ok []

/-- One module for each path, under its normal path. -/
def scan (s : Scanner) (paths : List String) : Except Fault (List ScannedModule) :=
  paths.mapM fun path =>
    let path := Path.normalize path
    (s.dependencies paths path).map fun targets => ⟨path, targets⟩

/-- The scanner as an edge source. -/
def source (s : Scanner) : EdgeSource :=
  fun paths => .plain (s.scan paths)

end Scanner

end CommitSplit
