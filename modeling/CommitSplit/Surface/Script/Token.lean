import CommitSplit.Text.Blank

/-!
# Tokens of scripts

A script is read as a flat list of tokens. Each token knows what was expected where it stands, which
decides between a division and a regular expression, between a block and an object, and whether a
line break in front of it ends a statement.
-/

namespace CommitSplit.Script

/-- What may follow at a place in a script. -/
inductive Position
  | statement
  | operand
  /-- An operand has just ended. -/
  | operator
  /-- The name of a member follows. -/
  | member
  deriving DecidableEq, Inhabited

/-- Brackets by what stands between them. -/
inductive Bracket
  | paren | square | block | object
  deriving DecidableEq, Inhabited

inductive Symbol
  | word (text : String)
  /-- A string with its quotes. -/
  | string (written : String)
  | template
  /-- A number or a regular expression. -/
  | value
  /-- A name in the tag of an element. -/
  | tag (name : String)
  | opening (bracket : Bracket)
  | closing (bracket : Bracket)
  | mark (text : String)
  deriving DecidableEq, Inhabited

structure Token where
  symbol : Symbol
  position : Position
  /-- Whether a line break stands in front. -/
  onNewLine : Bool
  /-- Whether a comment stands in front. -/
  afterComment : Bool
  deriving DecidableEq, Inhabited

namespace Token

/-- The word, unless it is the name of a member. -/
def keyword? (t : Token) : Option String :=
  match t.symbol with
  | .word text => if t.position = .member then none else some text
  | _ => none

def isMark (t : Token) (text : String) : Bool :=
  t.symbol = .mark text

/-- Marks that carry on the expression of the line before. -/
def carriesOn (text : String) : Bool :=
  match text.toList with
  | ['+', '+'] | ['-', '-'] => false
  | ['!'] => false
  | c :: _ => c ∈ ",:;*%><=?^|&/.+-!".toList
  | [] => false

/-- Whether the token begins a new statement because of the line break in front of it. -/
def beginsStatement (t : Token) : Bool :=
  t.onNewLine && t.position ≠ .operand && t.position ≠ .member &&
    match t.symbol with
    | .mark text => !carriesOn text
    | .opening .paren | .opening .square | .template => false
    | .word text => text ≠ "in" && text ≠ "instanceof"
    | _ => true

/-- By how much the token changes the depth of brackets. -/
def depthAfter (depth : Nat) (t : Token) : Nat :=
  match t.symbol with
  | .opening _ => depth + 1
  | .closing _ => depth - 1
  | _ => depth

end Token

/-- Which constructs a script may hold. -/
structure Dialect where
  /-- Elements written as tags. -/
  elements : Bool
  /-- Type annotations. -/
  types : Bool
  deriving DecidableEq

namespace Dialect

def plain : Dialect :=
  ⟨true, false⟩

def typed : Dialect :=
  ⟨false, true⟩

def typedWithElements : Dialect :=
  ⟨true, true⟩

end Dialect

end CommitSplit.Script
