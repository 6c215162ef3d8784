import CommitSplit.Surface.Script.Token
import CommitSplit.Surface.Source.Span

/-!
# Reading the tokens of scripts

The reader keeps a frame for every bracket, template and element it is inside of. In a frame of a
template or an element the text is not split into tokens; only the expressions embedded in it are.
-/

namespace CommitSplit.Script

open Source (isSpace isLineBreak quoted pastNumber)

inductive FrameKind
  | bracket (kind : Bracket)
  /-- An expression inside a template or an element. -/
  | embedded
  | template
  /-- A tag, inside so many angle brackets. -/
  | tag (closing : Bool) (angles : Nat)
  /-- Between the tags of an element. -/
  | children
  deriving DecidableEq

/-- What is pending at one level of brackets. -/
structure Level where
  /-- What follows behind the body of a function or class that is still to come. -/
  body : Option Position
  /-- Whether the next colon ends a case. -/
  inCase : Bool
  deriving DecidableEq

/-- A frame with what follows behind it and what was pending around it. -/
structure Frame where
  kind : FrameKind
  resume : Position
  around : Level

structure Lexer where
  frames : List Frame
  position : Position
  level : Level
  /-- The latest token and whether it began a statement. -/
  previous : Symbol
  previousBegan : Bool
  onNewLine : Bool
  afterComment : Bool

namespace Lexer

def start : Lexer :=
  { frames := [], position := .statement, level := ⟨none, false⟩, previous := .mark ";"
    previousBegan := false, onNewLine := false, afterComment := false }

/-- The token of a symbol at this place. -/
def token (s : Lexer) (symbol : Symbol) : Token :=
  ⟨symbol, s.position, s.onNewLine, s.afterComment⟩

/-- Behind a symbol, with the given expectation. -/
def past (s : Lexer) (symbol : Symbol) (position : Position) : Lexer :=
  { s with
    position := position, previous := symbol, previousBegan := s.position = .statement
    onNewLine := false, afterComment := false }

/-- Into a frame. -/
def enter (s : Lexer) (kind : FrameKind) (resume : Position) : Lexer :=
  { s with frames := ⟨kind, resume, s.level⟩ :: s.frames, level := ⟨none, false⟩ }

/-- Out of the innermost frame, if there is one. -/
def leave (s : Lexer) : Lexer :=
  match s.frames with
  | [] => s
  | frame :: frames =>
    { s with frames := frames, position := frame.resume, level := frame.around }

/-- Whether the innermost frame is an object. -/
def inObject (s : Lexer) : Bool :=
  s.frames.head?.any fun frame => frame.kind = .bracket .object

/-- Whether the innermost frame lists statements. -/
def inStatements (s : Lexer) : Bool :=
  match s.frames.head? with
  | none => true
  | some frame => frame.kind = .bracket .block

end Lexer

/-- Whether a character may stand inside a word; a backslash begins an escaped one. -/
def isWordPart (c : Char) : Bool :=
  if c.toNat < 128 then c.isAlphanum || c = '_' || c = '$' || c = '\\' else !isSpace c

/-- Whether a character may begin a word. -/
def isWordStart (c : Char) : Bool :=
  (isWordPart c && !c.isDigit) || c = '#'

/-- Words behind which an operand follows. -/
def operandWords : List String :=
  ["return", "typeof", "new", "delete", "void", "throw", "case", "yield", "await", "default",
    "extends", "const", "let", "var", "import"]

/-- Words behind which a statement follows. -/
def statementWords : List String :=
  ["else", "do", "try", "finally"]

/-- Words between two operands. -/
def infixWords : List String :=
  ["in", "instanceof", "of", "as", "satisfies"]

/-- Words that leave it open whether a statement follows. -/
def leadingWords : List String :=
  ["export", "async", "abstract", "declare"]

/-- Words whose parentheses are followed by a statement. -/
def controlWords : List String :=
  ["if", "while", "for", "with"]

/-- The mark of more than one character that the text begins with, longest first. -/
def longMarks : List String :=
  ["??=", "**=", "===", "!==", "&&=", "||=", "...", "=>", "?.", "??", "++", "--", "**", "==", "!=",
    "&&", "||", "+=", "-=", "*=", "%=", "&=", "|=", "^="]

/-- The mark at the start of a text. A question mark in front of a decimal fraction stands alone. -/
def markAt (cs : List Char) : String :=
  match longMarks.find? fun m => m.toList.isPrefixOf cs with
  | some "?." =>
    match cs with
    | _ :: _ :: d :: _ => if d.isDigit then "?" else "?."
    | _ => "?."
  | some m => m
  | none => String.ofList (cs.take 1)

/-- What is behind a regular expression whose opening slash was read. -/
def pastRegex (inClass : Bool) : List Char → List Char
  | [] => []
  | [_] => []
  | c :: d :: rest =>
    if c = '\\' then pastRegex inClass rest
    else if c = '[' then pastRegex true (d :: rest)
    else if c = ']' then pastRegex false (d :: rest)
    else if c = '/' && !inClass then (d :: rest).dropWhile isWordPart
    else pastRegex inClass (d :: rest)

/-- What is behind a comment whose opening mark was read, and whether it holds a line break. -/
def pastBlockComment : List Char → Bool × List Char
  | [] => (false, [])
  | [c] => (isLineBreak c, [])
  | c :: d :: rest =>
    if c = '*' && d = '/' then (false, rest)
    else
      let (broken, rest) := pastBlockComment (d :: rest)
      (broken || isLineBreak c, rest)

/-- Whether an angle bracket at this place begins an element. With types, a name that is followed by
a comma or by `extends` is a type parameter. -/
def beginsElement (dialect : Dialect) (s : Lexer) (rest : List Char) : Bool :=
  dialect.elements && (s.position = .statement || s.position = .operand) &&
    match rest with
    | '>' :: _ => true
    | c :: _ =>
      let behind := (rest.dropWhile isWordPart).dropWhile isSpace
      let parameter := dialect.types &&
        ([','].isPrefixOf behind || "extends ".toList.isPrefixOf behind)
      isWordStart c && c ≠ '#' && !parameter
    | [] => false

/-- The frame of an opening brace: a body that was pending, a block where a statement is expected or
behind an arrow, and an object where an operand is. -/
def openBrace (s : Lexer) : Bracket × Position × Lexer :=
  let typeMarks := [":", "|", "&", "=>", "<", ",", "?", "="]
  let inType := typeMarks.any fun m => s.previous = .mark m
  match s.level.body with
  | some resume =>
    if inType then (.object, .operator, s)
    else (.block, resume, { s with level := { s.level with body := none } })
  | none =>
    if s.previous = .mark "=>" then (.block, .operator, s)
    else if s.position = .statement then (.block, .statement, s)
    else if s.position = .operand then (.object, .operator, s)
    else (.block, if s.inObject then .operator else .statement, s)

/-- The expectation behind a word, and what is pending then. -/
def afterWord (s : Lexer) (text : String) (isKey : Bool) : Position × Level :=
  let level := s.level
  if s.position = .member then (.operator, level)
  else if text = "case" then (.operand, { level with inCase := true })
  else if text = "default" && isKey then (.operand, { level with inCase := true })
  else if isKey then (.operator, level)
  else if text = "function" || text = "class" then
    (.operator,
      { level with body := some (if s.position = .statement then .statement else .operator) })
  else if text ∈ statementWords then (.statement, level)
  else if text ∈ operandWords then (.operand, level)
  else if text ∈ leadingWords && s.position = .statement then (.statement, level)
  else if text ∈ infixWords && s.position = .operator then (.operand, level)
  else (.operator, level)

/-- The expectation behind a mark. -/
def afterMark (s : Lexer) (text : String) : Position × Level :=
  let level := s.level
  if text = ";" then (.statement, ⟨none, false⟩)
  else if text = "." || text = "?." then (.member, level)
  else if text = "++" || text = "--" then
    (if s.position = .operator && !s.onNewLine then .operator else .operand, level)
  else if text = "!" && s.position = .operator && !s.onNewLine then (.operator, level)
  else if text = ":" && level.inCase then (.statement, { level with inCase := false })
  else if text = ":" && s.inStatements && s.previousBegan && s.previous matches .word _ then
    (.statement, level)
  else (.operand, level)

/-- A step between tokens or over one: the tokens, the state behind and the text that is left. -/
abbrev Step :=
  List Token × Lexer × List Char

/-- A step over a single symbol. -/
def single (s : Lexer) (symbol : Symbol) (position : Position) (rest : List Char) : Step :=
  ([s.token symbol], s.past symbol position, rest)

/-- A step at a closing bracket; one that closes nothing is an ordinary mark. -/
def closeBracket (s : Lexer) (c : Char) (rest : List Char) : Step :=
  match s.frames with
  | ⟨.bracket kind, _, _⟩ :: _ =>
    let symbol := Symbol.closing kind
    ([s.token symbol], { (s.past symbol .operator).leave with previousBegan := false }, rest)
  | ⟨.embedded, _, _⟩ :: _ =>
    let symbol := Symbol.closing .block
    ([s.token symbol], (s.past symbol .operator).leave, rest)
  | _ => single s (.mark c.toString) .operator rest

/-- A step in ordinary code at a character that is neither blank nor the start of a comment. -/
def stepCode (dialect : Dialect) (s : Lexer) (c : Char) (rest : List Char) : Step :=
  if isWordStart c then
    let text := String.ofList (c :: rest.takeWhile isWordPart)
    let behind := rest.dropWhile isWordPart
    let isKey := (behind.dropWhile isSpace).head? = some ':'
    let (position, level) := afterWord s text isKey
    let s' := s.past (.word text) position
    ([s.token (.word text)], { s' with level := level }, behind)
  else if c.isDigit || (c = '.' && rest.head?.any Char.isDigit) then
    single s .value .operator (pastNumber isWordPart (c :: rest))
  else if c = '\x22' || c = '\x27' then
    let (inside, behind) := quoted c rest
    single s (.string (String.ofList (c :: inside))) .operator behind
  else if c = '\x60' then
    let s' := s.past .template .operator
    ([s.token .template], s'.enter .template .operator, rest)
  else if c = '(' then
    let control := controlWords.any fun text => s.previous = .word text
    let symbol := Symbol.opening .paren
    let s' := s.past symbol .operand
    ([s.token symbol], s'.enter (.bracket .paren) (if control then .statement else .operator), rest)
  else if c = '[' then
    let symbol := Symbol.opening .square
    ([s.token symbol], (s.past symbol .operand).enter (.bracket .square) .operator, rest)
  else if c = '\x7b' then
    let (kind, resume, s) := openBrace s
    let symbol := Symbol.opening kind
    let inside := if kind = .block then Position.statement else Position.operand
    ([s.token symbol], (s.past symbol inside).enter (.bracket kind) resume, rest)
  else if c = ')' || c = ']' || c = '\x7d' then closeBracket s c rest
  else if c = '/' && s.position ≠ .operator then single s .value .operator (pastRegex false rest)
  else if c = '<' && beginsElement dialect s rest then
    let name := String.ofList (rest.takeWhile isWordPart)
    let symbol := Symbol.tag name
    ([s.token symbol], (s.past symbol .operator).enter (.tag false 0) .operator,
      rest.dropWhile isWordPart)
  else
    let text := if c = '/' || c = '<' || c = '>' then c.toString else markAt (c :: rest)
    let (position, level) := afterMark s text
    let s' := s.past (.mark text) position
    ([s.token (.mark text)], { s' with level := level }, (c :: rest).drop text.length)

/-- A step inside a template. -/
def stepTemplate (s : Lexer) (c : Char) (rest : List Char) : Step :=
  if c = '\x60' then ([], s.leave, rest)
  else if c = '\\' then ([], s, rest.drop 1)
  else if c = '$' && rest.head? = some '\x7b' then
    let symbol := Symbol.opening .block
    ([s.token symbol], (s.past symbol .operand).enter .embedded .operator, rest.drop 1)
  else ([], s, rest)

/-- A step over an expression embedded in an element. -/
def openEmbedded (s : Lexer) (rest : List Char) : Step :=
  let symbol := Symbol.opening .block
  ([s.token symbol], (s.past symbol .operand).enter .embedded .operator, rest)

/-- A step into the tag of an element. -/
def openTag (s : Lexer) (rest : List Char) : Step :=
  let name := String.ofList (rest.takeWhile isWordPart)
  let symbol := Symbol.tag name
  ([s.token symbol], (s.past symbol .operator).enter (.tag false 0) .operator,
    rest.dropWhile isWordPart)

/-- A step inside a tag. `value` says whether an equals sign stands in front. -/
def stepTag (s : Lexer) (closing : Bool) (angles : Nat) (c : Char) (rest : List Char) : Step :=
  let frames := s.frames.drop 1
  let become (kind : FrameKind) : Lexer :=
    match s.frames with
    | frame :: _ => { s with frames := { frame with kind := kind } :: frames }
    | [] => s
  if c = '\x22' || c = '\x27' then
    ([], { s with previous := .value }, (rest.dropWhile (· ≠ c)).drop 1)
  else if c = '\x7b' then openEmbedded s rest
  else if c = '/' && rest.head? = some '>' && angles = 0 then ([], s.leave, rest.drop 1)
  else if c = '=' then ([], { s with previous := .mark "=" }, rest)
  else if c = '<' then
    if s.previous = .mark "=" then openTag { s with previous := .value } rest
    else ([], become (.tag closing (angles + 1)), rest)
  else if c = '>' then
    if angles > 0 then ([], become (.tag closing (angles - 1)), rest)
    else if closing then ([], s.leave, rest)
    else ([], become .children, rest)
  else ([], s, rest)

/-- A step between the tags of an element. -/
def stepChildren (s : Lexer) (c : Char) (rest : List Char) : Step :=
  if c = '\x7b' then openEmbedded s rest
  else if c = '<' then
    match rest with
    | '/' :: behind =>
      let name := String.ofList ((behind.dropWhile isSpace).takeWhile isWordPart)
      let symbol := Symbol.tag name
      let closed := s.frames.drop 1
      let frame := s.frames.head?.map fun frame => { frame with kind := .tag true 0 }
      ([s.token symbol],
        { s.past symbol .operator with frames := frame.toList ++ closed }, behind)
    | _ => openTag s rest
  else ([], s, rest)

/-- A step at any place. -/
def stepAt (dialect : Dialect) (s : Lexer) (c : Char) (rest : List Char) : Step :=
  match s.frames.head?.map Frame.kind with
  | some .template => stepTemplate s c rest
  | some (.tag closing angles) => stepTag s closing angles c rest
  | some .children => stepChildren s c rest
  | _ =>
    if isSpace c then ([], { s with onNewLine := s.onNewLine || isLineBreak c }, rest)
    else if c = '/' && rest.head? = some '/' then
      ([], { s with afterComment := true }, rest.dropWhile fun c => !isLineBreak c)
    else if c = '/' && rest.head? = some '*' then
      let (broken, rest) := pastBlockComment (rest.drop 1)
      ([], { s with afterComment := true, onNewLine := s.onNewLine || broken }, rest)
    else stepCode dialect s c rest

/-- The tokens of the text that is left; every step takes a character at least. -/
def lexFrom (dialect : Dialect) : Nat → Lexer → List Char → List Token
  | 0, _, _ => []
  | _ + 1, _, [] => []
  | fuel + 1, s, c :: rest =>
    let (tokens, s, rest) := stepAt dialect s c rest
    tokens ++ lexFrom dialect fuel s rest

/-- The text without the line that names an interpreter. -/
def dropInterpreterLine (cs : List Char) : List Char :=
  if ['#', '!'].isPrefixOf cs then cs.dropWhile fun c => !isLineBreak c else cs

/-- The tokens of a script. -/
def tokens (dialect : Dialect) (content : List Char) : List Token :=
  lexFrom dialect (content.length + 1) Lexer.start (dropInterpreterLine content)

end CommitSplit.Script
