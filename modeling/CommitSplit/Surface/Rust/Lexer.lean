import CommitSplit.Surface.Piece
import CommitSplit.Surface.Source.Span

/-!
# Tokens of Rust

Comments nest. A string may be raw, and then ends at a quotation mark with as many hashes as in
front. An apostrophe begins a character if one is closed behind it, and a lifetime otherwise.
-/

namespace CommitSplit.Rust

open Source

/-- What is behind a block comment, read inside so many of them. -/
def pastComment : Nat → List Char → List Char
  | _, [] => []
  | _, [_] => []
  | depth, c :: d :: rest =>
    if c = '*' && d = '/' then if depth ≤ 1 then rest else pastComment (depth - 1) rest
    else if c = '/' && d = '*' then pastComment (depth + 1) rest
    else pastComment depth (d :: rest)

/-- What is behind a raw string whose opening quotation mark was read. -/
def pastRaw (hashes : List Char) : List Char → List Char
  | [] => []
  | c :: rest =>
    if c = '\x22' && hashes.isPrefixOf rest then rest.drop hashes.length else pastRaw hashes rest

/-- What is behind a character whose opening apostrophe was read, if there is a character. -/
def pastCharacter? (cs : List Char) : Option (List Char) :=
  match cs with
  | '\\' :: _ :: rest => some ((rest.dropWhile (· ≠ '\x27')).drop 1)
  | c :: '\x27' :: rest => if c = '\x27' then none else some rest
  | _ => none

/-- What a word in front of a quotation mark, a hash or an apostrophe begins: its sign and what is
behind. -/
def literalBehind? (word : String) (rest : List Char) : Option (Sign × List Char) :=
  let hashes := rest.takeWhile (· = '#')
  match rest.drop hashes.length with
  | '\x22' :: inside =>
    if word = "r" || word = "br" || word = "cr" then some (.string, pastRaw hashes inside)
    else if (word = "b" || word = "c") && hashes = [] then some (.string, (quoted '\x22' inside).2)
    else none
  | '\x27' :: inside =>
    if word = "b" && hashes = [] then (pastCharacter? inside).map fun rest => (.value, rest)
    else none
  | c :: behind =>
    if word = "r" && hashes = ['#'] && isWordStart c then
      some (.word (String.ofList ('r' :: '#' :: c :: behind.takeWhile isWordPart)),
        behind.dropWhile isWordPart)
    else none
  | [] => none

/-- The sign at a character that is neither blank nor the start of a comment, and what is behind. -/
def signAt (c : Char) (rest : List Char) : Sign × List Char :=
  if isWordStart c then
    let word := String.ofList (c :: rest.takeWhile isWordPart)
    let behind := rest.dropWhile isWordPart
    (literalBehind? word behind).getD (.word word, behind)
  else if c.isDigit then (.value, rest.dropWhile isWordPart)
  else if c = '\x22' then (.string, (quoted c rest).2)
  else if c = '\x27' then
    match pastCharacter? rest with
    | some behind => (.value, behind)
    | none =>
      (.word (String.ofList (c :: rest.takeWhile isWordPart)), rest.dropWhile isWordPart)
  else
    match Fence.opening? c, Fence.closing? c with
    | some fence, _ => (.opening fence, rest)
    | _, some fence => (.closing fence, rest)
    | _, _ =>
      if (c = '-' || c = '=') && rest.head? = some '>' then
        (.mark (String.ofList [c, '>']), rest.drop 1)
      else (.mark c.toString, rest)

/-- The tokens of the text that is left; every step takes a character at least. -/
def tokensFrom : Nat → List Char → List SourceToken
  | 0, _ => []
  | _ + 1, [] => []
  | fuel + 1, c :: rest =>
    if isSpace c then tokensFrom fuel rest
    else if c = '/' && rest.head? = some '/' then tokensFrom fuel (rest.dropWhile (· ≠ '\n'))
    else if c = '/' && rest.head? = some '*' then tokensFrom fuel (pastComment 1 (rest.drop 1))
    else
      let (sign, behind) := signAt c rest
      ⟨sign, ⟨c :: rest, behind⟩⟩ :: tokensFrom fuel behind

/-- The text without a line that names an interpreter; an attribute of the whole file is none. -/
def dropInterpreterLine (cs : List Char) : List Char :=
  match cs with
  | '#' :: '!' :: rest =>
    if (rest.dropWhile isSpace).head? = some '[' then cs else cs.dropWhile (· ≠ '\n')
  | _ => cs

/-- The pieces of a text. -/
def pieces (content : List Char) : List Piece :=
  let cs := dropInterpreterLine (dropMark content)
  Piece.ofTokens (tokensFrom (cs.length + 1) cs)

end CommitSplit.Rust
