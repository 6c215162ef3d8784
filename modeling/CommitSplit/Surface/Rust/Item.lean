import CommitSplit.Surface.Rust.Lexer

/-!
# Items of Rust

A source text is a list of items, and so is the body of an implementation. Of an item only the part
in front of its body is read; the body of an implementation is kept for reading its own items.
-/

namespace CommitSplit.Rust

inductive Item
  /-- A use of a path, as it is written. -/
  | use (path : String)
  /-- A module, here or in another file. -/
  | module (name : String) (here : Bool)
  /-- A function with a body. -/
  | function (name : String)
  /-- A type, trait or constant. -/
  | named (name : String)
  /-- The implementation of a type itself, not of a trait for it. -/
  | inherent (type : String) (body : List Piece)
  | other

/-- An item, and whether everyone may use it. -/
structure Declaration where
  isPublic : Bool
  item : Item

/-- The number of angle brackets that are open behind a piece. -/
def anglesAfter (angles : Nat) (p : Piece) : Nat :=
  if p.isMark "<" then angles + 1 else if p.isMark ">" then angles - 1 else angles

/-- The pieces up to the first one outside of angle brackets that satisfies a condition, and the
others. -/
def spanOutside (stops : Piece → Bool) : Nat → List Piece → List Piece × List Piece
  | _, [] => ([], [])
  | angles, p :: ps =>
    if angles = 0 && stops p then ([], p :: ps)
    else
      let (front, rest) := spanOutside stops (anglesAfter angles p) ps
      (p :: front, rest)

/-- What stands in front of a body, the body if there is one, and what follows. -/
def splitBody (ps : List Piece) : List Piece × Option (List Piece) × List Piece :=
  let (head, rest) := spanOutside (fun p => (p.inside? .brace).isSome || p.isMark ";") 0 ps
  match rest with
  | p :: rest => (head, p.inside? .brace, rest)
  | [] => (head, none, [])

/-- The pieces in front of a semicolon, and those behind it. -/
def splitEnd (ps : List Piece) : List Piece × List Piece :=
  match Piece.splitFirst (Piece.isMark ";") ps with
  | some (front, _, rest) => (front, rest)
  | none => (ps, [])

/-- The pieces behind the angle bracket that closes the one in front, unless what is inside converts
a type. -/
def pastParameters? : Nat → List Piece → Option (List Piece)
  | _, [] => none
  | angles, p :: ps =>
    if angles = 1 && p.isWord "as" then none
    else if angles = 1 && p.isMark ">" then some ps
    else pastParameters? (anglesAfter angles p) ps

/-- Whether a piece is a lifetime. -/
def isLifetime (p : Piece) : Bool :=
  p.word?.any fun word => word.toList.head? = some '\x27'

/-- Whether the word `for` stands between a trait and a type. The same word may also introduce
lifetimes. -/
def implementsTrait : Nat → List Piece → Bool
  | _, [] => false
  | angles, p :: ps =>
    let introduces := match ps with
      | angle :: lifetime :: _ => angle.isMark "<" && isLifetime lifetime
      | _ => false
    (angles = 0 && p.isWord "for" && !introduces) || implementsTrait (anglesAfter angles p) ps

/-- An implementation, read behind its keyword, and what follows. -/
def readImplementation (ps : List Piece) : Item × List Piece :=
  let (head, body, rest) := splitBody ps
  let subject := match head with
    | p :: behind => if p.isMark "<" then (pastParameters? 1 behind).getD head else head
    | [] => []
  let type := (spanOutside (Piece.isWord "where") 0 subject).1
  match body with
  | some body =>
    (if implementsTrait 0 subject then .other else .inherent (Piece.written type) body, rest)
  | none => (.other, rest)

/-- The first word of some pieces. -/
def leadingName (ps : List Piece) : String :=
  (ps.head?.bind Piece.word?).getD ""

/-- Keywords of items that end with a body or a semicolon and are named behind the keyword. -/
def typeKeywords : List String :=
  ["struct", "enum", "trait"]

/-- Words that may stand in front of the keyword of an item. Some of them are also names. -/
def modifiers : List String :=
  ["const", "async", "unsafe", "safe", "default", "auto"]

/-- Whether a word modifies the item that begins with the next one. -/
def modifies (word next : String) : Bool :=
  word ∈ modifiers &&
    (next ∈ ["fn", "impl", "trait", "extern", "mod", "const", "async", "unsafe"] ||
      (word = "unsafe" && next = "auto"))

/-- An item without its visibility, and what follows. -/
def readItem : List Piece → Item × List Piece
  | [] => (.other, [])
  | p :: ps =>
    let passed := (Item.other, (splitBody (p :: ps)).2.2)
    match p.word? with
    | none => passed
    | some keyword =>
      let next := leadingName ps
      if keyword = "use" then
        let (path, rest) := splitEnd ps
        (.use (Piece.written path), rest)
      else if keyword = "mod" then
        let (_, body, rest) := splitBody ps
        (.module next body.isSome, rest)
      else if keyword = "fn" then
        let (_, body, rest) := splitBody ps
        (if body.isSome then .function next else .other, rest)
      else if keyword ∈ typeKeywords || (keyword = "union" && next ≠ "") then
        (.named next, (splitBody ps).2.2)
      else if modifies keyword next then readItem ps
      else if keyword = "const" || keyword = "type" then (.named next, (splitEnd ps).2)
      else if keyword = "static" then
        let name := if next = "mut" || next = "ref" then leadingName (ps.drop 1) else next
        (.named name, (splitEnd ps).2)
      else if keyword = "impl" then readImplementation ps
      else if keyword = "extern" then
        match ps with
        | q :: behind =>
          if q.isString && leadingName behind ≠ "" then readItem behind
          else if q.isWord "fn" then readItem (q :: behind)
          else passed
        | [] => passed
      else passed

/-- The pieces without the visibility in front, and whether that opens the item to everyone. -/
def readVisibility (ps : List Piece) : Bool × List Piece :=
  match ps with
  | p :: rest =>
    if p.isWord "pub" then
      match rest with
      | q :: behind => if (q.inside? .paren).isSome then (false, behind) else (true, rest)
      | [] => (true, [])
    else if p.isWord "crate" && leadingName rest ≠ "" then (false, rest)
    else (false, ps)
  | [] => (false, [])

/-- The pieces behind an attribute, if there is one. -/
def pastAttribute? (ps : List Piece) : Option (List Piece) :=
  match ps with
  | hash :: rest =>
    if hash.isMark "#" then
      match rest with
      | p :: behind =>
        if (p.inside? .square).isSome then some behind
        else if p.isMark "!" then some (behind.drop 1)
        else none
      | [] => none
    else none
  | [] => none

/-- The items of a list of pieces; every step takes a piece at least. -/
def declarationsFrom : Nat → List Piece → List Declaration
  | 0, _ => []
  | _ + 1, [] => []
  | fuel + 1, p :: ps =>
    match pastAttribute? (p :: ps) with
    | some rest => declarationsFrom fuel rest
    | none =>
      if p.isMark ";" then declarationsFrom fuel ps
      else
        let (isPublic, rest) := readVisibility (p :: ps)
        let (item, rest) := readItem rest
        ⟨isPublic, item⟩ :: declarationsFrom fuel rest

def declarations (ps : List Piece) : List Declaration :=
  declarationsFrom (ps.length + 1) ps

end CommitSplit.Rust
