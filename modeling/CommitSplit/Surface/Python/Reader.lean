import CommitSplit.Surface.Python.Lexer
import CommitSplit.Surface.Python.Listing

/-!
# The surface of Python

Only statements at the margin count. The names that they bind are exported unless they begin with an
underscore; where `__all__` is assigned, the strings listed there are the exports instead.
-/

namespace CommitSplit.Python

/-- What a statement at the margin contributes. -/
inductive Binding
  /-- Modules that are imported. -/
  | imports (modules : List String)
  /-- A name that gets a meaning. -/
  | declares (name : String)
  /-- The list of exports; none if it is announced without a value. -/
  | exports (names : Option (List String))
  deriving DecidableEq

/-- Words that are never names. -/
def keywords : List String :=
  ["False", "None", "True", "and", "as", "assert", "break", "class", "continue", "def", "del",
    "elif", "else", "except", "finally", "for", "from", "global", "if", "import", "in", "is", "lambda",
    "nonlocal", "not", "or", "pass", "raise", "return", "try", "while", "with", "yield"]

/-- Words that begin a statement with a body of its own. -/
def blockKeywords : List String :=
  ["if", "elif", "else", "for", "while", "with", "try", "except", "finally"]

/-- A module in an import, without the name given to it. -/
def importedModule (ps : List Piece) : String :=
  match Piece.splitFirst (Piece.isWord "as") ps with
  | some (module, _, _) => Piece.written module
  | none => Piece.written ps

/-- What the right side of `__all__` says, read behind the name. -/
def explicitExports (ps : List Piece) : Option (List String) :=
  (Piece.splitFirst (Piece.isMark "=") ps).map fun (_, _, value) =>
    (listedStrings value).map unquote

/-- A statement without a body. -/
def readSimple (ps : List Piece) : Option Binding :=
  match ps with
  | [] => none
  | p :: rest =>
    match p.word? with
    | none => none
    | some word =>
      if word = "import" then
        some (.imports ((Piece.sections (Piece.isMark ",") rest).map importedModule))
      else if word = "from" then
        (Piece.splitFirst (Piece.isWord "import") rest).bind fun (module, _, _) =>
          let name := Piece.written module
          if name = "__future__" then none else some (.imports [name])
      else if word ∉ keywords && rest.head?.any (fun q => q.isMark "=" || q.isMark ":") then
        if word = "__all__" then some (.exports (explicitExports rest)) else some (.declares word)
      else none

/-- The name of a definition, read at its keyword. -/
def definedName? (ps : List Piece) : Option String :=
  match ps with
  | p :: q :: _ => if p.isWord "def" || p.isWord "class" then q.word? else none
  | _ => none

/-- Whether a line has a body: it begins with the keyword of one, or it matches a subject. -/
def hasBody (ps : List Piece) : Bool :=
  match ps with
  | p :: _ =>
    p.word?.any (· ∈ blockKeywords) || (p.isWord "match" && ps.getLast?.any (Piece.isMark ":"))
  | [] => false

/-- The bindings of a line of code. -/
def readLine (ps : List Piece) : List Binding :=
  let plain := if ps.head?.any (Piece.isWord "async") then ps.drop 1 else ps
  if ps.head?.any (Piece.isSign .indent) then []
  else
    match definedName? plain with
    | some name => [.declares name]
    | none =>
      if hasBody plain then []
      else (Piece.sections (Piece.isMark ";") ps).filterMap readSimple

/-- The exports that the last assignment to `__all__` lists, if there is any. -/
def explicit? (bs : List Binding) : Option (List String) :=
  bs.foldl (fun found b => match b with
    | .exports names => names
    | _ => found) none

/-- Names bound at the margin that are meant for others. -/
def declared (bs : List Binding) : List String :=
  bs.filterMap fun b => match b with
    | .declares name => if name.toList.head? = some '_' then none else some name
    | _ => none

def imported (bs : List Binding) : List String :=
  bs.flatMap fun b => match b with
    | .imports modules => modules
    | _ => []

/-- The surface of a source text. -/
def read (content : List Char) : SurfaceNames :=
  let bs := (codeLines content).flatMap readLine
  SurfaceNames.of (imported bs) ((explicit? bs).getD (declared bs))

end CommitSplit.Python
