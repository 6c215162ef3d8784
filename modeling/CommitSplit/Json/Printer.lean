import CommitSplit.Json.Basic

/-!
# Writing JSON

Two layouts: compact, without any blanks, and indented by two spaces with one item or member a line.
An empty array or object is written as its two brackets in both. In a string the quote, the
backslash and the control characters below the space are escaped; all else stands for itself.
-/

namespace CommitSplit.Json

/-- The digits of a control character's code in lower-case hexadecimal, two of them. -/
def controlDigits (c : Char) : List Char :=
  [Nat.digitChar (c.toNat / 16), Nat.digitChar (c.toNat % 16)]

/-- How a character is written inside a string. -/
def escapeChar (c : Char) : List Char :=
  if c = '\x22' then ['\\', '\x22']
  else if c = '\\' then ['\\', '\\']
  else if c = '\x08' then ['\\', 'b']
  else if c = '\x09' then ['\\', 't']
  else if c = '\x0a' then ['\\', 'n']
  else if c = '\x0c' then ['\\', 'f']
  else if c = '\x0d' then ['\\', 'r']
  else if c.toNat < 0x20 then ['\\', 'u', '0', '0'] ++ controlDigits c
  else [c]

/-- A string in quotes. -/
def quote (s : String) : String :=
  String.ofList (['\x22'] ++ s.toList.flatMap escapeChar ++ ['\x22'])

/-- The texts with a separator between them, in brackets. -/
def enclose (opening separator closing : String) (items : List String) : String :=
  opening ++ String.intercalate separator items ++ closing

mutual

/-- A value without blanks. -/
def compact : Json → String
  | null => "null"
  | bool b => if b then "true" else "false"
  | int i => toString i
  | real written => written
  | str s => quote s
  | arr items => enclose "[" "," "]" (compactItems items)
  | obj members => enclose "\x7b" "," "\x7d" (compactMembers members)

def compactItems : List Json → List String
  | [] => []
  | item :: items => item.compact :: compactItems items

def compactMembers : List (String × Json) → List String
  | [] => []
  | (key, value) :: members => (quote key ++ ":" ++ value.compact) :: compactMembers members

end

/-- The start of a line at the given depth. -/
def indent (depth : Nat) : String :=
  "\n" ++ String.ofList (List.replicate (2 * depth) ' ')

/-- Items on lines of their own between brackets. -/
def encloseLines (depth : Nat) (opening closing : String) (items : List String) : String :=
  if items.isEmpty then opening ++ closing
  else
    opening ++ indent (depth + 1) ++ String.intercalate ("," ++ indent (depth + 1)) items ++
      indent depth ++ closing

mutual

/-- A value that begins at the given depth, one item or member a line. -/
def prettyAt (depth : Nat) : Json → String
  | null => "null"
  | bool b => if b then "true" else "false"
  | int i => toString i
  | real written => written
  | str s => quote s
  | arr items => encloseLines depth "[" "]" (prettyItems (depth + 1) items)
  | obj members => encloseLines depth "\x7b" "\x7d" (prettyMembers (depth + 1) members)

def prettyItems (depth : Nat) : List Json → List String
  | [] => []
  | item :: items => item.prettyAt depth :: prettyItems depth items

def prettyMembers (depth : Nat) : List (String × Json) → List String
  | [] => []
  | (key, value) :: members =>
    (quote key ++ ": " ++ value.prettyAt depth) :: prettyMembers depth members

end

/-- A value in the indented layout. -/
def pretty (j : Json) : String :=
  j.prettyAt 0

end CommitSplit.Json
