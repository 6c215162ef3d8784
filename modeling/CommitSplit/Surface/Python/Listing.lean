import CommitSplit.Surface.Piece

/-!
# Strings that stand in an expression

An expression is split at its loosest operator, and of its immediate parts those that are a single
string are listed: the items of a list, of a tuple or of a set, but also the operands of an
operator. What is deeper inside is not listed.
-/

namespace CommitSplit.Python

/-- The string that some pieces are, as it is written. -/
def soleString? : List Piece → Option String
  | [p] => if p.isString then some (Piece.written [p]) else none
  | _ => none

/-- The parts that are single strings. -/
def soleStrings (parts : List (List Piece)) : List String :=
  parts.filterMap soleString?

/-- The pieces in front of the first word that begins the loop of a comprehension. -/
def beforeLoop (ps : List Piece) : List Piece :=
  match Piece.splitFirst (Piece.isWord "for") ps with
  | some (front, _, _) =>
    if front.getLast?.any (Piece.isWord "async") then front.dropLast else front
  | none => ps

/-- Words that join operands and are none themselves. -/
def joiningWords : List String :=
  ["and", "or", "not", "in", "is", "if", "else", "await", "lambda"]

/-- Whether a piece ends an operand, so that an operator behind it stands between two. -/
def endsOperand : Piece → Bool
  | .single .string _ | .single .value _ | .group .. => true
  | .single (.word text) _ => text ∉ joiningWords
  | _ => false

/-- Operators between two operands, of one rank. -/
structure Rank where
  marks : List String
  fromRight : Bool

/-- The arithmetic operators from the loosest to the tightest; signs in front of an operand come
behind the first of these lists. -/
def looseRanks : List Rank :=
  [⟨["|"], false⟩, ⟨["&"], false⟩, ⟨["^"], false⟩, ⟨["<<", ">>"], false⟩, ⟨["+", "-"], false⟩,
    ⟨["*", "/", "%", "//", "@"], false⟩]

def power : Rank :=
  ⟨["**"], true⟩

/-- The pieces, each with whether an operand ends in front of it. -/
def flagged (ps : List Piece) : List (Bool × Piece) :=
  (false :: ps.map endsOperand).zip ps

/-- The two sides of the operator of a rank that is applied last. -/
def splitAtRank (rank : Rank) (ps : List Piece) : Option (List Piece × List Piece) :=
  let isOperator (q : Bool × Piece) : Bool := q.1 && rank.marks.any fun m => q.2.isMark m
  let found (qs : List (Bool × Piece)) : Option Nat :=
    if rank.fromRight then qs.findIdx? isOperator
    else (qs.reverse.findIdx? isOperator).map fun i => qs.length - 1 - i
  (found (flagged ps)).map fun i => (ps.take i, ps.drop (i + 1))

/-- Marks that compare two operands. -/
def comparisons : List String :=
  ["<", ">", "<=", ">=", "==", "!=", "<>"]

/-- Whether a piece compares, given the piece behind it. -/
def compares (p : Piece) : Bool :=
  comparisons.any (fun m => p.isMark m) || p.isWord "in" || p.isWord "is"

/-- The operands of a chain of comparisons; `not` belongs to the operator beside it. -/
def compared (ps : List Piece) : List (List Piece) :=
  (Piece.sections compares ps).map fun operand =>
    let operand := if operand.getLast?.any (Piece.isWord "not") then operand.dropLast else operand
    if operand.head?.any (Piece.isWord "not") then operand.drop 1 else operand

/-- The strings that an expression without operators lists: those of a bracket, those written one
behind the other, the object of a member, or the object and the keys of a subscript. -/
def listedInOperand (ps : List Piece) : List String :=
  match ps with
  | [.single _ _] => []
  | [.group _ inside _] =>
    soleStrings ((Piece.sections (Piece.isMark ",") inside).map beforeLoop)
  | ps =>
    if ps.all Piece.isString then soleStrings (ps.map fun p => [p])
    else
      match ps.getLast? with
      | some (.group .square keys _) =>
        soleStrings (ps.dropLast :: Piece.sections (Piece.isMark ",") keys)
      | some (.group _ _ _) => soleStrings [ps.dropLast]
      | _ =>
        let object := ps.dropLast
        if object.getLast?.any (Piece.isMark ".") then soleStrings [object.dropLast] else []

/-- The strings that an arithmetic expression lists. -/
def listedInArithmetic (ps : List Piece) : List String :=
  match looseRanks.findSome? fun rank => splitAtRank rank ps with
  | some (left, right) => soleStrings [left, right]
  | none =>
    match ps with
    | p :: rest =>
      if p.isMark "-" || p.isMark "+" || p.isMark "~" then soleStrings [rest]
      else
        match splitAtRank power ps with
        | some (left, right) => soleStrings [left, right]
        | none => if p.isWord "await" then soleStrings [rest] else listedInOperand ps
    | [] => []

/-- The strings that an expression without conditions lists. -/
def listedInLogic (ps : List Piece) : List String :=
  match Piece.splitLast (Piece.isWord "or") ps with
  | some (left, _, right) => soleStrings [left, right]
  | none =>
    match Piece.splitLast (Piece.isWord "and") ps with
    | some (left, _, right) => soleStrings [left, right]
    | none =>
      if ps.head?.any (Piece.isWord "not") then soleStrings [ps.drop 1]
      else if ps.any compares then soleStrings (compared ps)
      else listedInArithmetic ps

/-- The pieces without the parameters of functions that are written as expressions; `depth` counts
the words `lambda` whose colon is still to come. -/
def withoutParameters : Nat → List Piece → List Piece
  | _, [] => []
  | 0, p :: ps => p :: withoutParameters (if p.isWord "lambda" then 1 else 0) ps
  | depth + 1, p :: ps =>
    withoutParameters
      (if p.isWord "lambda" then depth + 2 else if p.isMark ":" then depth else depth + 1) ps

/-- The pieces with a single value in place of a function at their end, which reaches as far as they
do. -/
def foldFunction (ps : List Piece) : List Piece :=
  match Piece.splitFirst (Piece.isWord "lambda") ps with
  | some (front, p, _) => front ++ [.single .value p.extent]
  | none => ps

/-- The strings that an expression lists. -/
def listedInExpression (ps : List Piece) : List String :=
  if ps.head?.any (Piece.isWord "lambda") then soleStrings [ps.drop 1]
  else
    let ps := foldFunction ps
    match Piece.splitFirst (Piece.isWord "if") ps with
    | some (chosen, _, rest) =>
      match Piece.splitFirst (Piece.isWord "else") rest with
      | some (condition, _, otherwise) => soleStrings [chosen, condition, otherwise]
      | none => []
    | none => listedInLogic ps

/-- The strings that the right side of an assignment lists. -/
def listedStrings (right : List Piece) : List String :=
  let ps := withoutParameters 0 right
  match Piece.splitFirst (Piece.isMark "=") ps with
  | some (_, _, value) => soleStrings [value]
  | none =>
    if ps.head?.any (Piece.isWord "yield") then
      soleStrings [if (ps.drop 1).head?.any (Piece.isWord "from") then ps.drop 2 else ps.drop 1]
    else if ps.any (Piece.isMark ",") then soleStrings (Piece.sections (Piece.isMark ",") ps)
    else listedInExpression ps

end CommitSplit.Python
