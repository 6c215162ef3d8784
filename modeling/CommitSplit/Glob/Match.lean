import CommitSplit.Glob.Basic
import CommitSplit.FirstSeen

/-!
# Matching globs

A token answers all texts that may be left behind it, so a sequence of tokens is the composition of
its parts and a glob matches when nothing may be left behind all of its tokens. Globs are matched
byte by byte: `?` and a class take one byte of the UTF-8 form of a path.
-/

namespace CommitSplit.Glob

/-- The UTF-8 bytes of a text. -/
def bytesOf (s : String) : List UInt8 :=
  s.toList.flatMap String.utf8EncodeChar

/-- All tails of a list, itself and the empty list included. -/
def tails : List α → List (List α)
  | [] => [[]]
  | x :: xs => (x :: xs) :: tails xs

/-- What may be left behind a slash. -/
def dropSlash : List UInt8 → List (List UInt8)
  | [] => []
  | b :: rest => if b = 0x2f then [rest] else []

/-- The bytes that a range of characters stands for: each bound's own bytes, and all bytes from the
last one of the first bound to the first one of the last bound. -/
def rangeHasByte (range : Char × Char) (b : UInt8) : Bool :=
  let low := String.utf8EncodeChar range.1
  let high := String.utf8EncodeChar range.2
  low.contains b || high.contains b ||
    (range.1 != range.2 && low.getLastD 0 ≤ b && b ≤ high.headD 0)

mutual

/-- What may be left of the bytes behind a token. -/
def Token.rests : Token → List UInt8 → List (List UInt8)
  | .literal c, bytes => ((String.utf8EncodeChar c).isPrefixOf? bytes).toList
  | .any, bytes => bytes.tail?.toList
  | .stars, bytes => tails bytes
  | .leadingDirs, bytes => bytes :: dropSlash bytes ++ (tails bytes).flatMap dropSlash
  | .trailingDirs, bytes => (dropSlash bytes).flatMap tails
  | .innerDirs, bytes =>
    let below := dropSlash bytes
    below ++ (below.flatMap tails).flatMap dropSlash
  | .class negated ranges, bytes =>
    match bytes with
    | [] => []
    | b :: rest => if (ranges.any fun range => rangeHasByte range b) != negated then [rest] else []
  | .choice branches, bytes =>
    if hasBranch branches then restsAny branches bytes else [bytes]

/-- What may be left behind tokens that follow one another. -/
def restsAll : List Token → List UInt8 → List (List UInt8)
  | [], bytes => [bytes]
  | t :: ts, bytes => FirstSeen.of ((t.rests bytes).flatMap fun rest => restsAll ts rest)

/-- What may be left behind one of the branches; a branch without meaning is no branch. -/
def restsAny : List (List Token) → List UInt8 → List (List UInt8)
  | [], _ => []
  | branch :: branches, bytes =>
    (if hasMeaning branch then restsAll branch bytes else []) ++ restsAny branches bytes

/-- Whether some token of the list asks for anything at all. -/
def hasMeaning : List Token → Bool
  | [] => false
  | t :: ts => t.isMeant || hasMeaning ts

/-- Whether some branch asks for anything at all. -/
def hasBranch : List (List Token) → Bool
  | [] => false
  | branch :: branches => hasMeaning branch || hasBranch branches

/-- Only a choice among empty branches asks for nothing. -/
def Token.isMeant : Token → Bool
  | .choice branches => hasBranch branches
  | _ => true

end

/-- Whether the tokens are literal characters, at least one. -/
def isLiteral (tokens : List Token) : Bool :=
  !tokens.isEmpty && tokens.all fun t => t matches .literal _

/-- Whether the tokens are literal characters without a slash, at least one. -/
def isLiteralName (tokens : List Token) : Bool :=
  isLiteral tokens && !tokens.any fun t => t matches .literal '/'

/-- Whether the glob asks for nothing but an end of the path: literal characters, perhaps behind one
`*` and behind directories of any kind. -/
def isPlainEnding : List Token → Bool
  | .leadingDirs :: .stars :: rest => isLiteral rest
  | .leadingDirs :: rest => isLiteral rest
  | .stars :: rest => isLiteral rest
  | _ => false

/-- Whether the last token is a literal dot. -/
def endsInDot (tokens : List Token) : Bool :=
  match tokens.getLast? with
  | some (.literal c) => c = '.'
  | _ => false

/-- Whether the glob is tested against the name at the end of a path: it fixes that whole name, it
is a `*` with an extension, or it ends in an extension without being a plain literal or ending. -/
def asksForName (tokens : List Token) : Bool :=
  match tokens with
  | .leadingDirs :: .stars :: .literal '.' :: [] => true
  | .stars :: .literal '.' :: [] => true
  | .leadingDirs :: rest =>
    isLiteralName rest || (!isPlainEnding tokens && endsInDot tokens)
  | _ =>
    !isLiteral tokens && !isPlainEnding tokens && endsInDot tokens

/-- Whether the glob matches the path. The glob `**` matches every path. A path that ends in a dot
has no name at its end, so a glob that is tested against that name does not match it. -/
def accepts (g : Glob) (path : String) : Bool :=
  if g.tokens matches [.leadingDirs] then true
  else if path.toList.getLast? = some '.' && asksForName g.tokens then false
  else (restsAll g.tokens (bytesOf path)).contains []

end CommitSplit.Glob
