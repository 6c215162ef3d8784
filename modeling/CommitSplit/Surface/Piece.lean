import CommitSplit.Surface.Names

/-!
# Pieces of a source text

A source text is split into tokens, and the tokens between matching brackets are put together. What
is left is a list of pieces, each a token or a bracket with the pieces inside. Every piece knows the
text from where it begins and the text behind it, so what was written is never built again: it is a
part of the source text.
-/

namespace CommitSplit

/-- Brackets by their shape. -/
inductive Fence
  | paren | square | brace
  deriving DecidableEq, Inhabited

namespace Fence

/-- The fence that a character opens. -/
def opening? (c : Char) : Option Fence :=
  if c = '(' then some paren else if c = '[' then some square
  else if c = '\x7b' then some brace else none

/-- The fence that a character closes. -/
def closing? (c : Char) : Option Fence :=
  if c = ')' then some paren else if c = ']' then some square
  else if c = '\x7d' then some brace else none

end Fence

/-- What a token is. -/
inductive Sign
  | word (text : String)
  /-- A string with its quotation marks. -/
  | string
  /-- A number, a character or whatever else stands for a value. -/
  | value
  | mark (text : String)
  | opening (fence : Fence)
  | closing (fence : Fence)
  /-- The end of a line of code. -/
  | lineEnd
  /-- Blanks in front of a line of code. -/
  | indent
  deriving DecidableEq, Inhabited

/-- A part of a source text: the text from where it begins and the text behind it. -/
structure Extent where
  start : List Char
  behind : List Char
  deriving DecidableEq, Inhabited

namespace Extent

/-- What stands between the two ends. -/
def text (e : Extent) : String :=
  String.ofList (e.start.take (e.start.length - e.behind.length))

end Extent

structure SourceToken where
  sign : Sign
  extent : Extent
  deriving DecidableEq, Inhabited

inductive Piece
  | single (sign : Sign) (extent : Extent)
  | group (fence : Fence) (inside : List Piece) (extent : Extent)
  deriving Inhabited

namespace Piece

def extent : Piece → Extent
  | single _ e => e
  | group _ _ e => e

/-- The word, if the piece is one. -/
def word? : Piece → Option String
  | single (.word text) _ => some text
  | _ => none

def isWord (text : String) (p : Piece) : Bool :=
  p.word? = some text

def isMark (text : String) : Piece → Bool
  | single (.mark t) _ => t = text
  | _ => false

def isString : Piece → Bool
  | single .string _ => true
  | _ => false

def isSign (sign : Sign) : Piece → Bool
  | single s _ => s = sign
  | _ => false

/-- What is inside, if the piece is a bracket of the given shape. -/
def inside? (fence : Fence) : Piece → Option (List Piece)
  | group f inside _ => if f = fence then some inside else none
  | _ => none

/-- What was written from the first to the last of some pieces. -/
def written (ps : List Piece) : String :=
  match ps.head?, ps.getLast? with
  | some first, some last => Extent.text ⟨first.extent.start, last.extent.behind⟩
  | _, _ => ""

/-- The pieces between those that separate; what follows the last one counts even if it is empty. -/
def sections (separates : Piece → Bool) (ps : List Piece) : List (List Piece) :=
  ps.splitOnP separates

/-- The pieces up to the first one that satisfies a condition, that one, and the others. -/
def splitFirst (p : Piece → Bool) : List Piece → Option (List Piece × Piece × List Piece)
  | [] => none
  | q :: qs =>
    if p q then some ([], q, qs)
    else (splitFirst p qs).map fun (front, found, rest) => (q :: front, found, rest)

/-- The pieces up to the last one that satisfies a condition, that one, and the others. -/
def splitLast (p : Piece → Bool) (ps : List Piece) : Option (List Piece × Piece × List Piece) :=
  (splitFirst p ps.reverse).map fun (rest, found, front) => (front.reverse, found, rest.reverse)

/-- A bracket that is still open, with the pieces in front of it, the latest first. -/
structure Unclosed where
  fence : Fence
  start : List Char
  before : List Piece

/-- The pieces behind a bracket that closes here. -/
def Unclosed.close (u : Unclosed) (recent : List Piece) (behind : List Char) : List Piece :=
  group u.fence recent.reverse ⟨u.start, behind⟩ :: u.before

/-- The pieces at the end of a text, where every open bracket ends. -/
def closeAll (recent : List Piece) (us : List Unclosed) : List Piece :=
  (us.foldl (fun recent u => u.close recent []) recent).reverse

/-- Puts tokens together. `recent` holds the pieces of the innermost open bracket, the latest first.
A mark that closes no bracket is left out. -/
def assemble : List Unclosed → List Piece → List SourceToken → List Piece
  | us, recent, [] => closeAll recent us
  | us, recent, t :: ts =>
    match t.sign with
    | .opening fence => assemble (⟨fence, t.extent.start, recent⟩ :: us) [] ts
    | .closing _ =>
      match us with
      | [] => assemble [] recent ts
      | u :: us => assemble us (u.close recent t.extent.behind) ts
    | sign => assemble us (single sign t.extent :: recent) ts

/-- The pieces of a text given by its tokens. -/
def ofTokens (ts : List SourceToken) : List Piece :=
  assemble [] [] ts

end Piece

end CommitSplit
