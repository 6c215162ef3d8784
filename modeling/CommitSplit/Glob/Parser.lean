import CommitSplit.Glob.Basic

/-!
# Reading globs

The reader keeps one open branch per unfinished alternative. The innermost branch is the one that
tokens are appended to; closing a group folds the branches since its opening brace into one token.
-/

namespace CommitSplit.Glob

/-- What has been read of a character class. -/
structure ClassState where
  ranges : List (Char × Char)
  first : Bool
  inRange : Bool

/-- Ends the last range with `c`. -/
def ClassState.closeRange (s : ClassState) (c : Char) : Except Fault ClassState :=
  match s.ranges.reverse with
  | [] => .ok { s with ranges := [(c, c)], first := false, inRange := false }
  | (low, _) :: earlier =>
    if c < low then .error (.reversedRange low c)
    else .ok { ranges := (((low, c) :: earlier).reverse), first := false, inRange := false }

/-- A single character of its own. -/
def ClassState.push (s : ClassState) (c : Char) : ClassState :=
  { ranges := s.ranges ++ [(c, c)], first := false, inRange := false }

/-- Reads the members of a class up to its closing bracket, which stands for itself in the first
place. A hyphen makes a range unless it comes first or last. -/
def readMembers : List Char → ClassState → Except Fault (List (Char × Char) × List Char)
  | [], _ => .error .unclosedClass
  | c :: rest, s =>
    if c = ']' && !s.first then
      .ok (if s.inRange then s.ranges ++ [('-', '-')] else s.ranges, rest)
    else if c = '-' && !s.first && !s.inRange then
      readMembers rest { s with inRange := true }
    else if s.inRange then
      match s.closeRange c with
      | .error fault => .error fault
      | .ok s => readMembers rest s
    else
      readMembers rest (s.push c)

/-- Reads a class behind its opening bracket. -/
def readClass (cs : List Char) : Except Fault (Token × List Char) :=
  let (negated, cs) := match cs with
    | '!' :: rest => (true, rest)
    | '^' :: rest => (true, rest)
    | rest => (false, rest)
  (readMembers cs ⟨[], true, false⟩).map fun (ranges, rest) => (Token.class negated ranges, rest)

/-- What has been read of a glob: the innermost branch with its tokens in reverse, the earlier
branches of the group it belongs to, and the branches around each open group. -/
structure Reading where
  branch : List Token
  finished : List (List Token)
  around : List (List Token × List (List Token))

namespace Reading

def push (r : Reading) (t : Token) : Reading :=
  { r with branch := t :: r.branch }

def isNested (r : Reading) : Bool :=
  !r.around.isEmpty

/-- A brace opens a group with an empty first branch. -/
def openChoice (r : Reading) : Reading :=
  { branch := [], finished := [], around := (r.branch, r.finished) :: r.around }

/-- A comma inside a group begins the next branch. -/
def nextBranch (r : Reading) : Reading :=
  { r with branch := [], finished := r.finished ++ [r.branch.reverse] }

/-- A closing brace turns the branches of its group into one token. -/
def closeChoice (r : Reading) : Except Fault Reading :=
  match r.around with
  | [] => .error .unopenedChoice
  | (branch, finished) :: around =>
    let token := Token.choice (r.finished ++ [r.branch.reverse])
    .ok { branch := token :: branch, finished, around }

/-- Two asterisks that do not fill a component are two single ones. -/
def pushTwoStars (r : Reading) : Reading :=
  (r.push .stars).push .stars

/-- A double asterisk that fills a component, read behind the component's slash. It replaces the
token of that slash, unless a token for whole directories stands there already. -/
def pushDirs (r : Reading) (dirs : Token) : Reading :=
  match r.branch with
  | .leadingDirs :: _ => r
  | .trailingDirs :: _ => r
  | _ :: branch => { r with branch := dirs :: branch }
  | [] => r.push dirs

/-- A double asterisk between the character `before` and the text `rest`; also answers what is left
to read. -/
def doubleStar (r : Reading) (before : Option Char) (rest : List Char) : Reading × List Char :=
  if r.branch.isEmpty then
    match rest with
    | [] => (r.push .leadingDirs, [])
    | '/' :: rest => (r.push .leadingDirs, rest)
    | _ => (r.pushTwoStars, rest)
  else if before != some '/' && !(r.isNested && (before = some ',' || before = some '\x7b')) then
    (r.pushTwoStars, rest)
  else
    match rest with
    | [] => (r.pushDirs .trailingDirs, [])
    | '/' :: rest => (r.pushDirs .innerDirs, rest)
    | c :: _ =>
      if r.isNested && (c = ',' || c = '\x7d') then (r.pushDirs .trailingDirs, rest)
      else (r.pushTwoStars, rest)

end Reading

/-- Reads a glob to its end. `before` is the character in front of the text that is left, and
`steps` bounds the number of tokens. -/
def readTokens : Nat → Option Char → List Char → Reading → Except Fault (List Token)
  | 0, _, _, r => .ok r.branch.reverse
  | _ + 1, _, [], r => if r.isNested then .error .unclosedChoice else .ok r.branch.reverse
  | steps + 1, before, c :: rest, r =>
    if c = '?' then readTokens steps (some c) rest (r.push .any)
    else if c = '*' then
      match rest with
      | '*' :: rest =>
        let (r, left) := r.doubleStar before rest
        readTokens steps (if left.length < rest.length then some '/' else some '*') left r
      | _ => readTokens steps (some c) rest (r.push .stars)
    else if c = '[' then
      match readClass rest with
      | .error fault => .error fault
      | .ok (token, rest) => readTokens steps (some ']') rest (r.push token)
    else if c = '\x7b' then readTokens steps (some c) rest r.openChoice
    else if c = '\x7d' then
      match r.closeChoice with
      | .error fault => .error fault
      | .ok r => readTokens steps (some c) rest r
    else if c = ',' && r.isNested then readTokens steps (some c) rest r.nextBranch
    else if c = '\\' then
      match rest with
      | [] => .error .danglingEscape
      | escaped :: rest => readTokens steps (some escaped) rest (r.push (.literal escaped))
    else readTokens steps (some c) rest (r.push (.literal c))

/-- Reads a glob. -/
def parse (s : String) : Except Fault Glob :=
  let cs := s.toList
  (readTokens (cs.length + 1) none cs ⟨[], [], []⟩).map Glob.mk

end CommitSplit.Glob
