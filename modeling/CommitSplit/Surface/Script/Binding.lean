import CommitSplit.Surface.Script.Token

/-!
# Binding patterns

What stands at the left of a declaration: a name, or an object or array pattern whose parts are
patterns again. A part may have a default, which is an expression and may mention names of its own.
A pattern binds the names in it; a surface also lists the names that its defaults mention.
-/

namespace CommitSplit.Script

inductive Binding
  | name (text : String)
  /-- The parts of an object or array pattern; keys bind nothing. -/
  | parts (parts : List Binding)
  /-- A part with the names that its default mentions. -/
  | withDefault (target : Binding) (mentioned : List String)
  deriving Inhabited

namespace Binding

mutual

/-- The names that a pattern binds. -/
def bound : Binding → List String
  | name text => [text]
  | parts ps => boundAll ps
  | withDefault target _ => target.bound

def boundAll : List Binding → List String
  | [] => []
  | p :: ps => p.bound ++ boundAll ps

end

mutual

/-- The names that stand in a pattern, in the order of the text: those it binds and those its
defaults mention. -/
def listed : Binding → List String
  | name text => [text]
  | parts ps => listedAll ps
  | withDefault target mentioned => target.listed ++ mentioned

def listedAll : List Binding → List String
  | [] => []
  | p :: ps => p.listed ++ listedAll ps

end

end Binding

/-- Words that are no names in an expression. -/
def reservedWords : List String :=
  ["break", "case", "catch", "class", "const", "continue", "debugger", "default", "delete", "do",
    "else", "enum", "export", "extends", "false", "finally", "for", "function", "if", "import",
    "in", "instanceof", "let", "new", "null", "return", "static", "super", "switch", "this",
    "throw", "true", "try", "typeof", "undefined", "var", "void", "while", "with", "yield", "await",
    "as", "satisfies", "of"]

/-- Whether a word in an expression is a name, given what follows it. -/
def isName (text : String) (next : Option Symbol) : Bool :=
  if text = "async" then
    match next with
    | some (.word _) | some (.opening .paren) => false
    | _ => true
  else text ∉ reservedWords

/-- Where an expression stands in the brackets around it. -/
inductive Nesting
  /-- In an object, where a key may follow. -/
  | key
  /-- In an object, behind a key. -/
  | entry
  /-- In any other bracket. -/
  | plain
  deriving DecidableEq

/-- The nesting behind a mark in a bracket. -/
def Nesting.afterMark (n : Nesting) (text : String) : Nesting :=
  match n with
  | plain => plain
  | key => if text = "..." || text = ":" then entry else key
  | entry => if text = "," then key else entry

/-- Whether the word at a key is only said about the key that follows it. -/
def isKeyModifier (next : Option Symbol) : Bool :=
  match next with
  | some (.word _) | some (.string _) | some .value | some (.mark "*")
  | some (.opening .square) => true
  | _ => false

/-- The names that an expression mentions: words that stand for a value, and the names of elements.
The keys of objects and the names of members are left out. -/
def mentionedNames : List Token → List Nesting → List String
  | [], _ => []
  | t :: ts, nestings =>
    let here := nestings.headD .plain
    let outer := nestings.drop 1
    match t.symbol with
    | .opening bracket =>
      mentionedNames ts ((if bracket = .object then .key else .plain) :: nestings)
    | .closing _ => mentionedNames ts outer
    | .tag name => (if name = "" then [] else [name]) ++ mentionedNames ts nestings
    | .mark text => mentionedNames ts (here.afterMark text :: outer)
    | .word text =>
      let next := ts.head?.map Token.symbol
      if here = .key then
        mentionedNames ts ((if isKeyModifier next then .key else .entry) :: outer)
      else if t.position ≠ .member && isName text next then text :: mentionedNames ts nestings
      else mentionedNames ts nestings
    | _ => mentionedNames ts nestings

/-- The tokens up to the first one outside of all brackets that satisfies `stops`, and the others. A
closing bracket of an outer pair stops too. -/
def spanFlat (stops : Token → Bool) : Nat → List Token → List Token × List Token
  | _, [] => ([], [])
  | depth, t :: ts =>
    let ends := match t.symbol with
      | .closing _ => true
      | _ => stops t
    if depth = 0 && ends then ([], t :: ts)
    else
      let (inside, rest) := spanFlat stops (t.depthAfter depth) ts
      (t :: inside, rest)

/-- The default of a part, if an equals sign stands here. -/
def readDefault (target : Binding) (ts : List Token) : Binding × List Token :=
  match ts with
  | ⟨.mark "=", _, _, _⟩ :: ts =>
    let (expression, rest) := spanFlat (fun t => t.isMark ",") 0 ts
    (.withDefault target (mentionedNames expression []), rest)
  | _ => (target, ts)

/-- The key of a part and what is behind it: one token, or a pair of square brackets. -/
def readKey (ts : List Token) : List Token × List Token :=
  match ts with
  | [] => ([], [])
  | t :: rest =>
    if t.symbol = .opening .square then
      let (inside, rest) := spanFlat (fun _ => false) 0 rest
      (t :: inside ++ rest.take 1, rest.drop 1)
    else ([t], rest)

mutual

/-- Reads a pattern without default. -/
def readBinding : Nat → List Token → Option (Binding × List Token)
  | 0, _ => none
  | fuel + 1, ts =>
    match ts with
    | [] => none
    | t :: ts =>
      match t.symbol with
      | .word text => some (.name text, ts)
      | .opening .square =>
        let (parts, rest) := readParts fuel false ts
        some (.parts parts, rest)
      | .opening _ =>
        let (parts, rest) := readParts fuel true ts
        some (.parts parts, rest)
      | _ => none

/-- Reads the parts of an object or array pattern up to its closing bracket. -/
def readParts : Nat → Bool → List Token → List Binding × List Token
  | 0, _, ts => ([], ts)
  | _ + 1, _, [] => ([], [])
  | fuel + 1, isObject, t :: ts =>
    match t.symbol with
    | .closing _ => ([], ts)
    | .mark text =>
      if text = "..." then
        match readBinding fuel ts with
        | some (part, rest) =>
          let (parts, rest) := readParts fuel isObject rest
          (part :: parts, rest)
        | none => readParts fuel isObject ts
      else readParts fuel isObject ts
    | _ =>
      if isObject then
        let (_, behindKey) := readKey (t :: ts)
        match behindKey with
        | ⟨.mark ":", _, _, _⟩ :: behind => readPart fuel isObject behind
        | _ => readPart fuel isObject (t :: ts)
      else readPart fuel isObject (t :: ts)

/-- Reads one part with its default, and the parts behind it. -/
def readPart : Nat → Bool → List Token → List Binding × List Token
  | 0, _, ts => ([], ts)
  | fuel + 1, isObject, ts =>
    match readBinding fuel ts with
    | some (part, rest) =>
      let (part, rest) := readDefault part rest
      let (parts, rest) := readParts fuel isObject rest
      (part :: parts, rest)
    | none => readParts fuel isObject (ts.drop 1)

end

end CommitSplit.Script
