import CommitSplit.Toml.Quoted

/-!
# Reading TOML

A document is read line by line: a header, a key with its value, or nothing, each perhaps followed
by a comment. Only arrays and strings may go over several lines.
-/

namespace CommitSplit.Toml

/-- How deep values may be nested, and how many parts a key may have. -/
def maxDepth : Nat :=
  79

/-- Whether a character may stand in a key without quotation marks. -/
def isKeyPart (c : Char) : Bool :=
  c.isAlphanum || c = '_' || c = '-'

/-- Reads a key without dots. -/
def readSimpleKey (cs : List Char) : Option (String × List Char) :=
  match cs with
  | [] => none
  | c :: _ =>
    if c = '\x22' || c = '\x27' then readQuoted cs
    else
      let key := cs.takeWhile isKeyPart
      if key = [] then none else some (String.ofList key, cs.dropWhile isKeyPart)

/-- Reads a key with dots, and the blanks around it. -/
def readKey : Nat → List Char → Option (List String × List Char)
  | 0, _ => none
  | fuel + 1, cs => do
    let (key, rest) ← readSimpleKey (cs.dropWhile isGap)
    match rest.dropWhile isGap with
    | '.' :: rest =>
      let (keys, rest) ← readKey fuel rest
      return (key :: keys, rest)
    | rest => return ([key], rest)

/-- What is behind a comment, if there is one. -/
def pastComment (cs : List Char) : List Char :=
  match cs with
  | '#' :: rest => rest.dropWhile isPlain
  | _ => cs

/-- What is behind the end of a line, with blanks and a comment in front of it. -/
def pastLineEnd? (cs : List Char) : Option (List Char) :=
  match pastComment (cs.dropWhile isGap) with
  | [] => some []
  | rest => pastLineBreak? rest

/-- What is behind blanks, line breaks and comments. -/
def pastSpace : Nat → List Char → List Char
  | 0, cs => cs
  | fuel + 1, cs =>
    match cs with
    | [] => []
    | c :: rest =>
      if isGap c then pastSpace fuel rest
      else if c = '#' then pastSpace fuel (pastComment cs)
      else
        match pastLineBreak? cs with
        | some rest => pastSpace fuel rest
        | none => cs

def pastAllSpace (cs : List Char) : List Char :=
  pastSpace cs.length cs

/-- A function that reads a value from the start of a text. -/
abbrev Reader (α : Type) :=
  List Char → Option (α × List Char)

/-- Reads the items of an array up to its closing bracket. -/
def readItems (item : Reader Toml) : Nat → Reader (List Toml)
  | 0, _ => none
  | fuel + 1, cs =>
    match pastAllSpace cs with
    | ']' :: rest => some ([], rest)
    | cs => do
      let (value, rest) ← item cs
      match pastAllSpace rest with
      | ']' :: rest => return ([value], rest)
      | ',' :: rest =>
        let (values, rest) ← readItems item fuel rest
        return (value :: values, rest)
      | _ => none

/-- Reads a key, the equals sign and the value. -/
def readPair (item : Reader Toml) (cs : List Char) : Option ((List String × Toml) × List Char) := do
  let (keys, rest) ← readKey maxDepth cs
  let (value, rest) ← item ((← past? '=' rest).dropWhile isGap)
  return ((keys, value), rest.dropWhile isGap)

/-- Reads the members of an inline table, of which there is one at least, up to its closing brace.
-/
def readMembers (item : Reader Toml) : Nat → Members → Reader Members
  | 0, _, _ => none
  | fuel + 1, ms, cs => do
    let ((keys, value), rest) ← readPair item cs
    let ms ← ms.define keys value
    match rest with
    | '\x7d' :: rest => return (ms, rest)
    | ',' :: rest => readMembers item fuel ms rest
    | _ => none

/-- Reads a value inside of which fewer than so many levels may be nested. -/
def readValue : Nat → Reader Toml
  | 0, _ => none
  | depth + 1, cs =>
    match cs with
    | [] => none
    | c :: rest =>
      if c = '\x22' || c = '\x27' then (readString cs).map fun (s, rest) => (.str s, rest)
      else if c = '[' && depth ≠ 0 then
        (readItems (readValue depth) (rest.length + 1) rest).map fun (items, rest) =>
          (.array items, rest)
      else if c = '\x7b' && depth ≠ 0 then
        match rest.dropWhile isGap with
        | '\x7d' :: rest => some (.table .inline [], rest)
        | rest =>
          (readMembers (readValue depth) (rest.length + 1) [] rest).map fun (ms, rest) =>
            (.table .inline ms, rest)
      else readScalar cs

/-- Reads the header of a table, or of one table of an array, whose first bracket was read. -/
def readHeader (cs : List Char) : Option ((Bool × List String) × List Char) := do
  match cs with
  | '[' :: inside =>
    let (keys, rest) ← readKey maxDepth inside
    return ((true, keys), ← past? ']' (← past? ']' rest))
  | _ =>
    let (keys, rest) ← readKey maxDepth cs
    return ((false, keys), ← past? ']' rest)

/-- Reads the lines of a document, given the open header and what the lines in front have defined.
-/
def readDocument : Nat → List String → Members → List Char → Option Members
  | 0, _, _, _ => none
  | fuel + 1, header, ms, cs =>
    match cs.dropWhile isGap with
    | [] => some ms
    | '#' :: rest => (pastLineEnd? ('#' :: rest)).bind (readDocument fuel header ms)
    | '[' :: rest => do
      let ((isElement, keys), rest) ← readHeader rest
      let ms ← if isElement then ms.openElement keys else ms.openTable keys
      readDocument fuel keys ms (← pastLineEnd? rest)
    | c :: rest =>
      match pastLineBreak? (c :: rest) with
      | some rest => readDocument fuel header ms rest
      | none => do
        let ((keys, value), rest) ← readPair (readValue (maxDepth + 1)) (c :: rest)
        readDocument fuel header (← ms.defineIn header keys value) (← pastLineEnd? rest)

/-- The members of a document. -/
def parse? (text : String) : Option Members :=
  let cs := match text.toList with
    | '\ufeff' :: rest => rest
    | cs => cs
  readDocument (cs.length + 1) [] [] cs

end CommitSplit.Toml
