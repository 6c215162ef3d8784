import CommitSplit.Toml.Scalar

/-!
# Quoted strings

Double quotation marks allow escapes and single ones do not. A mark written three times opens a
string of several lines, which may hold up to two marks in a row; a line break right behind the
opening is dropped, and a line break in the string is a line feed however it was written.
-/

namespace CommitSplit.Toml

/-- Whether a character may stand in a string or a comment: no control character but the tab. -/
def isPlain (c : Char) : Bool :=
  c = '\t' || (' ' ≤ c && c ≠ '\x7f')

def isGap (c : Char) : Bool :=
  c = ' ' || c = '\t'

/-- What is behind a line break, if there is one. -/
def pastLineBreak? (cs : List Char) : Option (List Char) :=
  match cs with
  | '\n' :: rest => some rest
  | '\r' :: '\n' :: rest => some rest
  | _ => none

/-- The character with a code given by digits of base sixteen. -/
def codePoint? (count : Nat) (cs : List Char) : Option (Char × List Char) :=
  let digits := cs.take count
  let isHex (c : Char) : Bool := c.isDigit || ('a' ≤ c.toLower && c.toLower ≤ 'f')
  let code := numberOf 16 digits
  if digits.length = count && digits.all isHex && code.isValidChar then
    some (Char.ofNat code, cs.drop count)
  else none

/-- The character of an escape whose backslash was read. -/
def readEscape (cs : List Char) : Option (Char × List Char) :=
  match cs with
  | 'b' :: rest => some ('\x08', rest)
  | 't' :: rest => some ('\t', rest)
  | 'n' :: rest => some ('\n', rest)
  | 'f' :: rest => some ('\x0c', rest)
  | 'r' :: rest => some ('\r', rest)
  | '\x22' :: rest => some ('\x22', rest)
  | '\\' :: rest => some ('\\', rest)
  | 'u' :: rest => codePoint? 4 rest
  | 'U' :: rest => codePoint? 8 rest
  | _ => none

/-- Reads a string on one line up to its closing mark. -/
def readLine (mark : Char) (escapes : Bool) : Nat → List Char → Option (List Char × List Char)
  | 0, _ => none
  | _ + 1, [] => none
  | fuel + 1, c :: rest =>
    if c = mark then some ([], rest)
    else if escapes && c = '\\' then do
      let (d, rest) ← readEscape rest
      let (inside, rest) ← readLine mark escapes fuel rest
      return (d :: inside, rest)
    else if isPlain c then do
      let (inside, rest) ← readLine mark escapes fuel rest
      return (c :: inside, rest)
    else none

/-- What is behind the blanks and line breaks that a backslash at the end of a line skips; none if
the backslash does not end its line. -/
def pastSkippedLine? (cs : List Char) : Option (List Char) :=
  (pastLineBreak? (cs.dropWhile isGap)).map pastBlanks
where
  /-- What is behind blanks and line breaks. -/
  pastBlanks : List Char → List Char
    | [] => []
    | '\r' :: '\n' :: rest => pastBlanks rest
    | c :: rest => if isGap c || c = '\n' then pastBlanks rest else c :: rest

/-- Reads a string of several lines up to its closing marks. -/
def readLines (mark : Char) (escapes : Bool) : Nat → List Char → Option (List Char × List Char)
  | 0, _ => none
  | _ + 1, [] => none
  | fuel + 1, c :: rest =>
    let goOn (d : List Char) (rest : List Char) : Option (List Char × List Char) :=
      (readLines mark escapes fuel rest).map fun (inside, rest) => (d ++ inside, rest)
    if c = mark then
      let marks := (c :: rest).takeWhile (· = mark)
      let inside := min 2 (marks.length - 3)
      if 3 ≤ marks.length then
        some (List.replicate inside mark, (c :: rest).drop (inside + 3))
      else goOn [c] rest
    else if escapes && c = '\\' then
      match pastSkippedLine? rest with
      | some rest => goOn [] rest
      | none => (readEscape rest).bind fun (d, rest) => goOn [d] rest
    else
      match pastLineBreak? (c :: rest) with
      | some rest => goOn ['\n'] rest
      | none => if isPlain c then goOn [c] rest else none

/-- Reads a string on one line. -/
def readQuoted (cs : List Char) : Option (String × List Char) :=
  match cs with
  | mark :: rest =>
    if mark = '\x22' || mark = '\x27' then
      (readLine mark (mark = '\x22') (rest.length + 1) rest).map fun (inside, rest) =>
        (String.ofList inside, rest)
    else none
  | [] => none

/-- Reads a string on one line or several. -/
def readString (cs : List Char) : Option (String × List Char) :=
  match cs with
  | a :: b :: c :: rest =>
    if (a = '\x22' || a = '\x27') && b = a && c = a then
      let rest := (pastLineBreak? rest).getD rest
      (readLines a (a = '\x22') (rest.length + 1) rest).map fun (inside, rest) =>
        (String.ofList inside, rest)
    else readQuoted cs
  | _ => readQuoted cs

end CommitSplit.Toml
