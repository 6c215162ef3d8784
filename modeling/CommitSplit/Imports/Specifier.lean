import CommitSplit.Path.Normal
import CommitSplit.Text.Pattern

/-!
# Import specifiers

The imports of a file are found by patterns over its text, so an import is seen wherever it looks
like one at the start of a line, and a call that loads a module is seen anywhere. A specifier says
what the found text means: a path relative to the file, a module path, or a name that stands for
itself.
-/

namespace CommitSplit

inductive Specifier
  /-- Relative to the importing file; the extension may be missing. -/
  | relative (written : String)
  /-- A dotted module path with its dots as slashes. -/
  | pythonModule (base : String)
  /-- A child module, as a path without extension. -/
  | rustModule (base : String)
  /-- A package, or anything that leads to no file. -/
  | bare (name : String)
  deriving DecidableEq, Inhabited

namespace Specifier

open Text (Pattern Capture Cursor)
open Text.Pattern

/-- The two marks that a module name is quoted with, in any pairing. -/
def quotes : String :=
  "\x22'"

/-- A quoted name, captured without its quotes. -/
def quotedName : Pattern :=
  sequence [oneOf quotes, group 1 (many1 (noneOf quotes)), oneOf quotes]

/-- The blanks at the start of a line. -/
def lineIndent : Pattern :=
  seq lineStart (many blank)

/-- `import … from 'name'` and `import 'name'`. -/
def scriptImport : Pattern :=
  let clause :=
    sequence [few1 (one fun c => Text.isWordChar c || Text.isBlank c || c ∈ "*\x7b\x7d,$".toList),
      many1 blank, text "from", many1 blank]
  sequence [lineIndent, text "import", many1 blank, optional clause, quotedName]

/-- `export * from 'name'`, perhaps under a name of its own, and `export {…} from 'name'`. -/
def scriptReexport : Pattern :=
  let all := seq (text "*")
    (optional (sequence [many1 blank, text "as", many1 blank, many1 (wordOr "")]))
  let some := sequence [text "\x7b", many (noneOf "\x7d"), text "\x7d"]
  sequence [lineIndent, text "export", many1 blank, optional (seq (text "type") (many1 blank)),
    alt all some, many blank, text "from", many1 blank, quotedName]

/-- `require('name')` and `import('name')`. -/
def scriptCall : Pattern :=
  sequence [wordBoundary, alt (text "require") (text "import"), text "(", many blank, quotedName,
    many blank, text ")"]

/-- `from module import names`; the names may begin behind an opening parenthesis. -/
def pythonFrom : Pattern :=
  sequence [lineIndent, text "from", many1 blank,
    group 1 (seq (many (text ".")) (many (wordOr "."))), many1 blank, text "import", many1 blank,
    optional (text "("), many blank, group 2 (many1 (wordOr " \t,*"))]

/-- `import module, module`. -/
def pythonImport : Pattern :=
  let name := many1 (wordOr ".")
  sequence [lineIndent, text "import", many1 blank,
    group 1 (seq name (many (sequence [many blank, text ",", many blank, name])))]

/-- `mod name;` of any visibility. -/
def rustChild : Pattern :=
  let restriction := sequence [text "(", many (noneOf ")"), text ")"]
  let visibility := sequence [text "pub", optional restriction, many1 blank]
  sequence [lineIndent, optional visibility, text "mod", many1 blank,
    group 1 (many1 (wordOr "")), many blank, text ";"]

/-- The first groups of all matches. -/
def firstGroups (p : Pattern) (content : List Char) : List Capture :=
  (p.findAll content).filterMap fun c => c.capture? 1

/-- Puts an element in front of the first one that is not before it. -/
def insertByOffset (x : Nat × α) : List (Nat × α) → List (Nat × α)
  | [] => [x]
  | y :: ys => if x.1 ≤ y.1 then x :: y :: ys else y :: insertByOffset x ys

/-- In the order of the offsets; what has the same offset stays in order. -/
def sortByOffset (xs : List (Nat × α)) : List (Nat × α) :=
  xs.foldr insertByOffset []

/-- Keeps the first of neighbours with the same offset. -/
def dropSameOffset : List (Nat × α) → List (Nat × α)
  | [] => []
  | x :: xs =>
    match dropSameOffset xs with
    | [] => [x]
    | y :: ys => if x.1 = y.1 then x :: ys else x :: y :: ys

/-- A module name as it stands in a script: relative if it begins with a dot segment. -/
def ofScriptName (name : List Char) : Specifier :=
  let isRelative :=
    ['.', '/'].isPrefixOf name || ['.', '.', '/'].isPrefixOf name || name = ['.'] ||
      name = ['.', '.']
  if isRelative then relative (String.ofList name) else bare (String.ofList name)

/-- The specifiers of a script in source order, whichever pattern found them. -/
def inScript (content : List Char) : List Specifier :=
  let found :=
    (firstGroups scriptImport content ++ firstGroups scriptReexport content ++
        firstGroups scriptCall content).map fun c => (c.offset, c.text)
  (dropSameOffset (sortByOffset found)).map fun (_, name) => ofScriptName name

/-- Dots separate modules as slashes separate directories. -/
def dotsToSlashes (cs : List Char) : List Char :=
  cs.map fun c => if c = '.' then '/' else c

/-- A module path from the top of the search path. -/
def absoluteModule (dotted : List Char) : Specifier :=
  if dotted = [] then bare "" else pythonModule (String.ofList (dotsToSlashes dotted))

/-- The directory that a number of leading dots stands for: one dot is the directory of the file and
every further one is a level up. -/
def packageOf (path : String) (dots : Nat) : String :=
  Nat.repeat Path.parent dots path

/-- A module path seen from a package. -/
def moduleIn (package : String) (dotted : List Char) : Specifier :=
  let rest := String.ofList (dotsToSlashes dotted)
  pythonModule (Path.normalize (if package = "" then rest else package ++ "/" ++ rest))

/-- The names of an import list: the first word between commas. -/
def importedNames (names : List Char) : List (List Char) :=
  ((Text.splitOn ',' names).map Text.firstWord).filter fun name => name ≠ [] && name ≠ ['*']

/-- The specifiers of one `from … import …`. With nothing behind the dots the names are modules of
the package. -/
def ofFromImport (path : String) (module names : List Char) : List Specifier :=
  let dots := (module.takeWhile (· = '.')).length
  let dotted := module.dropWhile (· = '.')
  if dots = 0 then [absoluteModule dotted]
  else
    let package := packageOf path dots
    if dotted = [] then (importedNames names).map (moduleIn package)
    else [moduleIn package dotted]

/-- The specifiers of a Python file in source order. -/
def inPython (path : String) (content : List Char) : List Specifier :=
  let fromImports := (pythonFrom.findAll content).flatMap fun c =>
    match c.capture? 1, c.capture? 2 with
    | some module, some names =>
      (ofFromImport path module.text names.text).map fun s => (module.offset, s)
    | _, _ => []
  let imports := (firstGroups pythonImport content).flatMap fun list =>
    (Text.splitOn ',' list.text).map fun module =>
      (list.offset, absoluteModule (Text.trimChars module))
  (sortByOffset (fromImports ++ imports)).map Prod.snd

/-- The names of the files whose child modules are their siblings. -/
def rustRootNames : List String :=
  ["lib.rs", "main.rs", "mod.rs"]

/-- The list without all repetitions of an ending. -/
def dropEndings (ending : List α) [BEq α] : Nat → List α → List α
  | 0, xs => xs
  | fuel + 1, xs =>
    if ending.isSuffixOf xs then dropEndings ending fuel (xs.take (xs.length - ending.length))
    else xs

/-- The directory of the child modules of a Rust file. -/
def rustModuleDirectory (path : String) : String :=
  let name := String.ofList ((Text.splitOn '/' path.toList).getLastD [])
  if name ∈ rustRootNames then Path.parent path
  else String.ofList (dropEndings ".rs".toList path.length path.toList)

/-- The specifiers of a Rust file in source order. -/
def inRust (path : String) (content : List Char) : List Specifier :=
  let directory := rustModuleDirectory path
  (firstGroups rustChild content).map fun name =>
    let name := String.ofList name.text
    rustModule (if directory = "" then name else directory ++ "/" ++ name)

end Specifier

end CommitSplit
