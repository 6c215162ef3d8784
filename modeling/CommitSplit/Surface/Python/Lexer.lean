import CommitSplit.Surface.Piece
import CommitSplit.Surface.Source.Span

/-!
# Tokens of Python

A line of code ends at a line break outside of all brackets that is not behind a backslash. Blanks
in front of a line are a token of their own. A formatted string holds expressions in braces, which
may hold strings again.
-/

namespace CommitSplit.Python

open Source

/-- What the scan of a string is inside of. -/
inductive Layer
  /-- Text up to the closing marks. -/
  | text (marks : List Char) (raw formatted : Bool)
  /-- An expression in braces, or a bracket in one. -/
  | expression (outermost : Bool)
  /-- The format behind an expression. -/
  | format
  deriving DecidableEq

/-- The letters in front of a quotation mark that say how a string is read. -/
def isStringLetters (word : List Char) : Bool :=
  word.length ≤ 3 && word.all fun c => c ∈ "rRuUbBfF".toList

def isRaw (letters : List Char) : Bool :=
  letters.any fun c => c = 'r' || c = 'R'

def isFormatted (letters : List Char) : Bool :=
  letters.any fun c => c = 'f' || c = 'F'

/-- The layer that a quotation mark opens, and what is behind the opening marks. -/
def openText (letters : List Char) (mark : Char) (rest : List Char) : Layer × List Char :=
  let text (marks : List Char) : Layer := .text marks (isRaw letters) (isFormatted letters)
  match rest with
  | c :: d :: behind =>
    if c = mark && d = mark then (text [mark, mark, mark], behind) else (text [mark], rest)
  | _ => (text [mark], rest)

/-- A step of the scan of a string in text. -/
def stepText (marks : List Char) (raw formatted : Bool) (layers : List Layer) (c : Char)
    (rest : List Char) : List Layer × List Char :=
  let here := Layer.text marks raw formatted
  if c = '\\' then
    match rest with
    | 'N' :: '\x7b' :: name =>
      if formatted && !raw then (here :: layers, (name.dropWhile (· ≠ '\x7d')).drop 1)
      else (here :: layers, rest.drop 1)
    | d :: behind =>
      if formatted && (d = '\x7b' || d = '\x7d') then (here :: layers, rest)
      else (here :: layers, behind)
    | [] => (layers, [])
  else if marks.isPrefixOf (c :: rest) then (layers, (c :: rest).drop marks.length)
  else if formatted && c = '\x7b' then
    if rest.head? = some '\x7b' then (here :: layers, rest.drop 1)
    else (.expression true :: here :: layers, rest)
  else (here :: layers, rest)

/-- A step of the scan of a string in an expression. -/
def stepExpression (outermost : Bool) (layers : List Layer) (c : Char) (rest : List Char) :
    List Layer × List Char :=
  let here := Layer.expression outermost
  if isWordStart c then
    let word := c :: rest.takeWhile isWordPart
    let behind := rest.dropWhile isWordPart
    match behind with
    | mark :: inside =>
      if (mark = '\x22' || mark = '\x27') && isStringLetters word then
        let (layer, inside) := openText word mark inside
        (layer :: here :: layers, inside)
      else (here :: layers, behind)
    | [] => (layers, [])
  else if c = '\x22' || c = '\x27' then
    let (layer, inside) := openText [] c rest
    (layer :: here :: layers, inside)
  else if (Fence.opening? c).isSome then (.expression false :: here :: layers, rest)
  else if (Fence.closing? c).isSome then (layers, rest)
  else if c = '!' && rest.head? = some '=' then (here :: layers, rest.drop 1)
  else if outermost && c = ':' then (.format :: layers, rest)
  else if c = '#' then (here :: layers, rest.dropWhile (· ≠ '\n'))
  else (here :: layers, rest)

/-- A step of the scan of a string in the format of an expression. -/
def stepFormat (layers : List Layer) (c : Char) (rest : List Char) : List Layer × List Char :=
  if c = '\x7b' then (.expression true :: .format :: layers, rest)
  else if c = '\x7d' then (layers, rest)
  else (.format :: layers, rest)

/-- What is behind a string, read inside the given layers; every step takes a character at least. -/
def pastLayers : Nat → List Layer → List Char → List Char
  | 0, _, cs => cs
  | _ + 1, [], cs => cs
  | _ + 1, _, [] => []
  | fuel + 1, layer :: layers, c :: rest =>
    let (layers, rest) :=
      match layer with
      | .text marks raw formatted => stepText marks raw formatted layers c rest
      | .expression outermost => stepExpression outermost layers c rest
      | .format => stepFormat layers c rest
    pastLayers fuel layers rest

/-- What is behind a string whose first quotation mark was read. -/
def pastString (letters : List Char) (mark : Char) (rest : List Char) : List Char :=
  let (layer, inside) := openText letters mark rest
  pastLayers (inside.length + 1) [layer] inside

/-- Marks of more than one character, longest first. -/
def longMarks : List String :=
  ["**=", "//=", "<<=", ">>=", "**", "//", "<<", ">>", "==", "!=", "<>", "<=", ">=", "->", ":=",
    "+=", "-=", "*=", "/=", "%=", "@=", "&=", "|=", "^="]

/-- The sign at a character that is neither blank nor the start of a comment, and what is behind. -/
def signAt (c : Char) (rest : List Char) : Sign × List Char :=
  if isWordStart c then
    let word := c :: rest.takeWhile isWordPart
    let behind := rest.dropWhile isWordPart
    match behind with
    | mark :: inside =>
      if (mark = '\x22' || mark = '\x27') && isStringLetters word then
        (.string, pastString word mark inside)
      else (.word (String.ofList word), behind)
    | [] => (.word (String.ofList word), [])
  else if c.isDigit || (c = '.' && rest.head?.any Char.isDigit) then
    (.value, pastNumber isWordPart (c :: rest))
  else if c = '\x22' || c = '\x27' then (.string, pastString [] c rest)
  else if ['.', '.', '.'].isPrefixOf (c :: rest) then (.value, rest.drop 2)
  else
    match Fence.opening? c, Fence.closing? c with
    | some fence, _ => (.opening fence, rest)
    | _, some fence => (.closing fence, rest)
    | _, _ =>
      match longMarks.find? fun m => m.toList.isPrefixOf (c :: rest) with
      | some m => (.mark m, (c :: rest).drop m.length)
      | none => (.mark c.toString, rest)

/-- What is behind a line break that follows a backslash, if there is one. -/
def pastContinuation? (rest : List Char) : Option (List Char) :=
  match rest with
  | '\r' :: '\n' :: behind => some behind
  | '\n' :: behind => some behind
  | '\r' :: behind => some behind
  | _ => none

/-- Whether nothing but a comment is left on a line. -/
def isBlankLine (cs : List Char) : Bool :=
  match cs.dropWhile fun c => isSpace c && !isLineBreak c with
  | [] => true
  | c :: _ => c = '#' || isLineBreak c

/-- The brackets that are open behind a sign. -/
def depthAfter (depth : Nat) (sign : Sign) : Nat :=
  match sign with
  | .opening _ => depth + 1
  | .closing _ => depth - 1
  | _ => depth

/-- The tokens of the text that is left, inside so many brackets; `atMargin` says whether a line
begins here. Every step takes a character at least. -/
def tokensFrom : Nat → Nat → Bool → List Char → List SourceToken
  | 0, _, _, _ => []
  | _ + 1, _, _, [] => []
  | fuel + 1, depth, atMargin, c :: rest =>
    let token (sign : Sign) (behind : List Char) : SourceToken := ⟨sign, ⟨c :: rest, behind⟩⟩
    if isLineBreak c then
      if depth = 0 then token .lineEnd rest :: tokensFrom fuel 0 true rest
      else tokensFrom fuel depth false rest
    else if c = '\x0c' then tokensFrom fuel depth atMargin rest
    else if isSpace c then
      if atMargin && !isBlankLine rest then token .indent rest :: tokensFrom fuel depth false rest
      else tokensFrom fuel depth false rest
    else if c = '#' then tokensFrom fuel depth atMargin (rest.dropWhile (! isLineBreak ·))
    else
      match if c = '\\' then pastContinuation? rest else none with
      | some behind => tokensFrom fuel depth false behind
      | none =>
        let (sign, behind) := signAt c rest
        token sign behind :: tokensFrom fuel (depthAfter depth sign) false behind

/-- The lines of code of a text. -/
def codeLines (content : List Char) : List (List Piece) :=
  let cs := dropMark content
  Piece.sections (Piece.isSign .lineEnd) (Piece.ofTokens (tokensFrom (cs.length + 1) 0 true cs))

end CommitSplit.Python
