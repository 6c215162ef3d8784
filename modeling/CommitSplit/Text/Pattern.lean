import CommitSplit.Text.Word

/-!
# Patterns over text

A small language of regular patterns with captured groups. A pattern denotes, at a cursor, the list
of cursors behind its matches in order of preference: an alternative prefers its first branch, a
greedy repetition prefers one more round, a reluctant one prefers to stop. The match at a cursor is
the first entry of that list, so preference is part of the meaning and no search strategy is.

`Pattern.findAll` collects the matches of a text from left to right without overlaps.
-/

namespace CommitSplit.Text

/-- A piece of text that a group matched, with the number of characters before it. -/
structure Capture where
  offset : Nat
  text : List Char
  deriving DecidableEq, Inhabited

/-- A place in a text together with the groups captured on the way to it, the latest first. -/
structure Cursor where
  offset : Nat
  before : Option Char
  rest : List Char
  captures : List (Nat × Capture)
  deriving DecidableEq

namespace Cursor

/-- The cursor at the start of a text. -/
def start (text : List Char) : Cursor :=
  ⟨0, none, text, []⟩

/-- The cursor one character further, if there is one. -/
def next? (c : Cursor) : Option Cursor :=
  match c.rest with
  | [] => none
  | x :: rest => some { c with offset := c.offset + 1, before := some x, rest := rest }

/-- The capture of the group with the given number. -/
def capture? (c : Cursor) (group : Nat) : Option Capture :=
  c.captures.lookup group

end Cursor

inductive Pattern
  | empty
  | one (accepts : Char → Bool)
  | lineStart
  | wordBoundary
  | seq (first second : Pattern)
  | alt (first second : Pattern)
  | star (greedy : Bool) (body : Pattern)
  | group (number : Nat) (body : Pattern)

namespace Pattern

/-- All ways to repeat a step at most `rounds` times. A round that consumes nothing ends the
repetition. -/
def iterate (step : Cursor → List Cursor) (greedy : Bool) : Nat → Cursor → List Cursor
  | 0, c => [c]
  | rounds + 1, c =>
    let further := (step c).filter fun d => c.offset < d.offset
    let longer := further.flatMap (iterate step greedy rounds)
    if greedy then longer ++ [c] else c :: longer

/-- Whether an optional neighbour is a word character. -/
def isWordSide (side : Option Char) : Bool :=
  side.any isWordChar

/-- The cursors behind the matches of a pattern at a cursor, the preferred one first. -/
def run : Pattern → Cursor → List Cursor
  | empty, c => [c]
  | one accepts, c => if c.rest.head?.any accepts then c.next?.toList else []
  | lineStart, c => if c.before = none ∨ c.before = some '\n' then [c] else []
  | wordBoundary, c => if isWordSide c.before != isWordSide c.rest.head? then [c] else []
  | seq first second, c => (first.run c).flatMap second.run
  | alt first second, c => first.run c ++ second.run c
  | star greedy body, c => iterate body.run greedy c.rest.length c
  | group number body, c =>
    (body.run c).map fun d =>
      let found := Capture.mk c.offset (c.rest.take (d.offset - c.offset))
      { d with captures := (number, found) :: d.captures }

/-- The preferred match at a cursor. -/
def match? (p : Pattern) (c : Cursor) : Option Cursor :=
  (p.run c).head?

/-- The matches from a cursor on. The search goes on behind a match, and one character further where
there is none or an empty one; `steps` bounds the places tried. -/
def findFrom (p : Pattern) : Nat → Cursor → List Cursor
  | 0, _ => []
  | steps + 1, c =>
    match p.match? c with
    | some d =>
      if c.offset < d.offset then d :: p.findFrom steps { d with captures := [] }
      else d :: (c.next?.map (p.findFrom steps)).getD []
    | none => (c.next?.map (p.findFrom steps)).getD []

/-- All matches in a text, from left to right and without overlaps. -/
def findAll (p : Pattern) (text : List Char) : List Cursor :=
  p.findFrom (text.length + 1) (Cursor.start text)

/-- The patterns one after the other. -/
def sequence : List Pattern → Pattern
  | [] => empty
  | [p] => p
  | p :: ps => seq p (sequence ps)

/-- Exactly the given text. -/
def text (s : String) : Pattern :=
  sequence (s.toList.map fun x => one (· = x))

/-- One of the characters. -/
def oneOf (chars : String) : Pattern :=
  one fun x => x ∈ chars.toList

/-- One character other than these. -/
def noneOf (chars : String) : Pattern :=
  one fun x => x ∉ chars.toList

/-- A blank. -/
def blank : Pattern :=
  one isBlank

/-- A word character or one of the given ones. -/
def wordOr (chars : String) : Pattern :=
  one fun x => isWordChar x || x ∈ chars.toList

/-- As often as possible, perhaps never. -/
def many (p : Pattern) : Pattern :=
  star true p

/-- As often as possible, at least once. -/
def many1 (p : Pattern) : Pattern :=
  seq p (star true p)

/-- As rarely as possible, at least once. -/
def few1 (p : Pattern) : Pattern :=
  seq p (star false p)

/-- Once if possible. -/
def optional (p : Pattern) : Pattern :=
  alt p empty

end Pattern

end CommitSplit.Text
