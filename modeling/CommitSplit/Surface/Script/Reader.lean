import CommitSplit.Surface.Names
import CommitSplit.Surface.Script.Binding
import CommitSplit.Surface.Script.Lexer

/-!
# The surface of a script

Import and export statements stand outside of all brackets. An export is read by its form: a
default, a list of names, everything of a module, or a declaration. Calls that load a module count
wherever they are, behind all statements.
-/

namespace CommitSplit.Script

/-- The text of a string token that follows the word `from`. -/
def fromClause : List Token → Option String
  | ⟨.word "from", _, _, _⟩ :: ⟨.string written, _, _, _⟩ :: _ => some written
  | _ => none

/-- The module of an import, read behind the word `import`. An import that assigns has none. -/
def importSource : Nat → List Token → Option String
  | _, [] => none
  | depth, t :: ts =>
    match fromClause (t :: ts) with
    | some written => if depth = 0 then some written else importSource (t.depthAfter depth) ts
    | none =>
      match t.symbol with
      | .string written => if depth = 0 then some written else importSource depth ts
      | .mark text =>
        if depth = 0 && (text = "=" || text = ";") then none else importSource depth ts
      | _ => importSource (t.depthAfter depth) ts

/-- What an export statement exports, and the module it takes that from. -/
structure Export where
  names : List String
  source : Option String
  deriving DecidableEq, Inhabited


/-- The written name of a token in a list of names. -/
def Token.written? (t : Token) : Option String :=
  match t.symbol with
  | .word text => some text
  | .string written => some written
  | _ => none

/-- The outer name of an entry in a list of names: the last of the two around `as`, without a marker
for types in front. -/
def entryName? (entry : List Token) : Option String :=
  match entry.filterMap Token.written? with
  | [name] => some name
  | [_, name] => some name
  | [_, "as", outer] => some outer
  | [_, _, "as", outer] => some outer
  | _ => none

/-- The entries between commas. -/
def entries (ts : List Token) : List (List Token) :=
  ts.splitOnP fun t => t.isMark ","

/-- The names of a list in braces, read behind the opening one, and what is behind the list. -/
def nameList (ts : List Token) : List String × List Token :=
  let (inside, rest) := spanFlat (fun _ => false) 0 ts
  ((entries inside).filterMap entryName?, rest.drop 1)

/-- The tokens behind type arguments that begin here, if angle brackets match around nothing but
what a type may hold. -/
def pastAngles : Nat → Nat → List Token → Option (List Token)
  | _, _, [] => none
  | angles, depth, t :: ts =>
    match t.symbol with
    | .mark "<" => pastAngles (angles + 1) depth ts
    | .mark ">" =>
      if angles > 1 then pastAngles (angles - 1) depth ts
      else if depth = 0 then some ts else none
    | .mark text =>
      if depth > 0 || text ∈ [",", ".", "|", "&", "?", ":", "=>", "...", "-"] then
        pastAngles angles depth ts
      else none
    | .closing _ => if depth = 0 then none else pastAngles angles (depth - 1) ts
    | .opening _ => pastAngles angles (depth + 1) ts
    | _ => pastAngles angles depth ts

/-- Whether a token outside of all brackets ends an expression; the first one does not begin another
statement. -/
def endsExpression (first : Bool) (t : Token) : Bool :=
  t.isMark "," || t.isMark ";" || (t.symbol matches .closing _) || (!first && t.beginsStatement)

/-- The tokens behind an expression: at a comma, a semicolon or the start of another statement. With
types, the commas between type arguments do not count; `skip` counts the tokens of such arguments
that are still to be passed. -/
def pastExpression (types : Bool) : Nat → Nat → Bool → List Token → List Token
  | _, _, _, [] => []
  | skip, depth, first, t :: ts =>
    if skip > 0 then pastExpression types (skip - 1) depth false ts
    else if depth = 0 && endsExpression first t then t :: ts
    else if types && t.isMark "<" then
      match pastAngles 0 0 (t :: ts) with
      | some rest => pastExpression types (ts.length - rest.length) depth false ts
      | none => pastExpression types 0 depth false ts
    else pastExpression types 0 (t.depthAfter depth) false ts

/-- Words behind which a type goes on. -/
def typeOperators : List String :=
  ["keyof", "typeof", "readonly", "infer", "extends", "is", "unique", "new"]

/-- Whether a token outside of all brackets ends a type; `complete` says whether the type may end
where it stands. -/
def endsType (complete : Bool) (t : Token) : Bool :=
  let begins := t.onNewLine && complete && match t.symbol with
    | .word _ | .opening .block | .opening .object | .mark "@" => true
    | _ => false
  t.isMark "," || t.isMark ";" || t.isMark "=" || (t.symbol matches .closing _) || begins

/-- The tokens behind a type annotation. Every angle bracket counts here, and a line break behind a
closing one may end the statement. -/
def pastType : Nat → Nat → Bool → List Token → List Token
  | _, _, _, [] => []
  | angles, depth, complete, t :: ts =>
    if angles = 0 && depth = 0 && endsType complete t then t :: ts
    else
      match t.symbol with
      | .mark "<" => pastType (angles + 1) depth false ts
      | .mark ">" => pastType (angles - 1) depth true ts
      | .mark _ => pastType angles depth false ts
      | .word text =>
        pastType angles (t.depthAfter depth) (text ∉ typeOperators) ts
      | .opening _ => pastType angles (depth + 1) false ts
      | _ => pastType angles (t.depthAfter depth) true ts

/-- The tokens behind the mark of a variable that gets its value elsewhere. -/
def pastPromise : List Token → List Token
  | ⟨.mark "!", _, _, _⟩ :: rest => rest
  | rest => rest

/-- The tokens behind a type annotation, if there is one. -/
def pastTyping : List Token → List Token
  | ⟨.mark ":", _, _, _⟩ :: rest => pastType 0 0 false rest
  | rest => rest

/-- The tokens behind an initial value, if there is one. -/
def pastInitializer (types : Bool) : List Token → List Token
  | ⟨.mark "=", _, _, _⟩ :: rest => pastExpression types 0 0 true rest
  | rest => rest

/-- The patterns of a declaration, read behind its keyword. -/
def readDeclarators (dialect : Dialect) : Nat → List Token → List Binding
  | 0, _ => []
  | fuel + 1, ts =>
    match readBinding (2 * ts.length + 2) ts with
    | none => []
    | some (binding, rest) =>
      match pastInitializer dialect.types (pastTyping (pastPromise rest)) with
      | ⟨.mark ",", _, _, _⟩ :: rest => binding :: readDeclarators dialect fuel rest
      | _ => [binding]

/-- A name with the names behind dots. -/
def dottedName : List Token → String
  | ⟨.word text, _, _, _⟩ :: ⟨.mark ".", _, _, _⟩ :: rest => text ++ "." ++ dottedName rest
  | ⟨.word text, _, _, _⟩ :: _ => text
  | ⟨.string written, _, _, _⟩ :: _ => written
  | _ => ""

/-- Words that may stand in front of the keyword of a declaration. -/
def declarationModifiers : List String :=
  ["async", "abstract"]

/-- Declarations whose name follows their keyword. -/
def namedDeclarations : List String :=
  ["class", "interface", "type", "enum", "namespace", "module"]

/-- The names of a declaration. -/
def declaredNames (dialect : Dialect) : List Token → List String
  | [] => []
  | t :: ts =>
    match t.keyword? with
    | none => []
    | some text =>
      if text ∈ declarationModifiers then declaredNames dialect ts
      else if text = "function" then
        match ts with
        | ⟨.mark "*", _, _, _⟩ :: rest => [dottedName (rest.take 1)]
        | rest => [dottedName (rest.take 1)]
      else if text = "const" && ts.head?.bind Token.keyword? = some "enum" then
        [dottedName ((ts.drop 1).take 1)]
      else if text = "const" || text = "let" || text = "var" then
        (readDeclarators dialect (ts.length + 1) ts).flatMap Binding.listed
      else if text ∈ namedDeclarations then [dottedName ts]
      else []

/-- The tokens behind decorators in front of a class. -/
def pastDecorators (ts : List Token) : List Token :=
  if ts.head?.any fun t => t.isMark "@" then
    (spanFlat (fun t => t.keyword? = some "class" || t.keyword? = some "abstract") 0 ts).2
  else ts

/-- An export statement, read behind the word `export`. -/
def readExport (dialect : Dialect) (ts : List Token) : Export :=
  let list (ts : List Token) : Export :=
    let (names, rest) := nameList ts
    ⟨names.map unquote, fromClause rest⟩
  let everything (ts : List Token) : Export :=
    match ts with
    | ⟨.word "as", _, _, _⟩ :: name :: rest => ⟨name.written?.toList, fromClause rest⟩
    | rest =>
      let source := fromClause rest
      ⟨source.toList.map fun written => "* from " ++ unquote written, source⟩
  match ts with
  | ⟨.word "default", _, _, _⟩ :: _ => ⟨["default"], none⟩
  | ⟨.opening _, _, _, _⟩ :: rest => list rest
  | ⟨.mark "*", _, _, _⟩ :: rest => everything rest
  | ⟨.word "type", _, _, _⟩ :: ⟨.opening _, _, _, _⟩ :: rest => list rest
  | ⟨.word "type", _, _, _⟩ :: ⟨.mark "*", _, _, _⟩ :: rest => everything rest
  | rest => ⟨declaredNames dialect (pastDecorators rest), none⟩

/-- The import and export statements outside of all brackets, in order: the modules they name and
the names they export. -/
def readStatements (dialect : Dialect) : Nat → List Token → List String × List String
  | _, [] => ([], [])
  | depth, t :: ts =>
    let (imports, exports) := readStatements dialect (t.depthAfter depth) ts
    if depth = 0 && t.keyword? = some "import" then
      match ts.head?.map Token.symbol with
      | some (.opening .paren) | some (.mark ".") => (imports, exports)
      | _ => ((importSource 0 ts).toList.map unquote ++ imports, exports)
    else if depth = 0 && t.keyword? = some "export" then
      let e := readExport dialect ts
      (e.source.toList.map unquote ++ imports, e.names ++ exports)
    else (imports, exports)

/-- The string that is the first argument of a call, read behind the name that is called. A comment
in front of it takes its place. -/
def firstArgument? (ts : List Token) : Option String :=
  let ts := match ts with
    | ⟨.mark "?.", _, _, _⟩ :: rest => rest
    | ⟨.mark "<", _, _, _⟩ :: _ => (pastAngles 0 0 ts).getD ts
    | rest => rest
  match ts with
  | ⟨.opening .paren, _, _, _⟩ :: argument :: behind :: _ =>
    match argument.symbol with
    | .string written =>
      let alone := behind.isMark "," || behind.symbol = .closing .paren
      if alone && !argument.afterComment then some written else none
    | _ => none
  | _ => none

/-- Whether the symbols in front, the latest first, begin an import that assigns. -/
def assignsImport : List Symbol → Bool
  | .mark "=" :: .word _ :: .word "import" :: _ => true
  | .mark "=" :: .word _ :: .word "type" :: .word "import" :: _ => true
  | _ => false

/-- The modules that are loaded by calls, in order. `before` holds the symbols in front, the latest
first. -/
def loadedModules (before : List Symbol) : List Token → List String
  | [] => []
  | t :: ts =>
    let rest := loadedModules (t.symbol :: before) ts
    let loads := (t.keyword? = some "require" || t.keyword? = some "import") &&
      before.head? ≠ some (.word "new") && !assignsImport before
    if loads then (firstArgument? ts).toList.map unquote ++ rest else rest

/-- The surface of a script. -/
def read (dialect : Dialect) (content : List Char) : SurfaceNames :=
  let ts := tokens dialect content
  let (imports, exports) := readStatements dialect 0 ts
  SurfaceNames.of (imports ++ loadedModules [] ts) exports

end CommitSplit.Script
