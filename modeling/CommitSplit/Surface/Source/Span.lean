import CommitSplit.Text.Blank

/-!
# Spans of a source text

What the readers of several languages have in common about characters: what is skipped between
tokens, what ends a line, how far a quoted string reaches.
-/

namespace CommitSplit.Source

/-- Whether a character is skipped between tokens. -/
def isSpace (c : Char) : Bool :=
  Text.isBlank c || c = '\ufeff' || c = '\u200b' || c = '\u2060'

def isLineBreak (c : Char) : Bool :=
  c = '\n' || c = '\r' || c = '\u2028' || c = '\u2029'

/-- Whether a character may stand inside a word. Of the characters beyond ASCII, all but blanks
may. -/
def isWordPart (c : Char) : Bool :=
  if c.toNat < 128 then c.isAlphanum || c = '_' else !isSpace c

/-- Whether a character may begin a word. -/
def isWordStart (c : Char) : Bool :=
  isWordPart c && !c.isDigit

/-- A quoted string up to its closing mark, and what is behind it; a backslash keeps the next
character. -/
def quoted (mark : Char) : List Char → List Char × List Char
  | [] => ([], [])
  | [c] => ([c], [])
  | c :: d :: rest =>
    if c = '\\' then
      let (inside, rest) := quoted mark rest
      (c :: d :: inside, rest)
    else if c = mark then ([c], d :: rest)
    else
      let (inside, rest) := quoted mark (d :: rest)
      (c :: inside, rest)

/-- What is behind a number made of word parts. A dot belongs to it once, and a sign behind an
exponent mark too. -/
def pastNumber (isPart : Char → Bool) (cs : List Char) : List Char :=
  let pastDigits (cs : List Char) : List Char :=
    let word := cs.takeWhile isPart
    let rest := cs.dropWhile isPart
    let signed := (word.getLast?.any fun c => c = 'e' || c = 'E') && word.head? ≠ some '0'
    match rest with
    | sign :: digits =>
      if signed && (sign = '+' || sign = '-') then digits.dropWhile isPart else rest
    | [] => rest
  match pastDigits cs with
  | '.' :: rest => pastDigits rest
  | rest => rest

/-- The text without a byte order mark at its start. -/
def dropMark (cs : List Char) : List Char :=
  match cs with
  | '\ufeff' :: rest => rest
  | _ => cs

end CommitSplit.Source
