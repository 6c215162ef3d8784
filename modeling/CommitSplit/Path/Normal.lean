import CommitSplit.Text.Blank

/-!
# Normal paths

Paths are compared as texts, so every spelling of a path is reduced to one form before it is used as
a key: blanks around it go, backslashes become slashes, empty and `.` segments go, and `..` removes
the segment in front of it. Leading `..` segments of a relative path stay.

Normalizing once is not always enough: a segment that is blank at its outer end becomes the end of
the text only when the segments around it are gone.
-/

namespace CommitSplit.Path

/-- The text between two slashes. -/
abbrev Segment := List Char

/-- The segment that names the directory itself. -/
def here : Segment := ['.']

/-- The segment that names the directory above. -/
def above : Segment := ['.', '.']

/-- Backslashes separate like slashes. -/
def unifySlash (c : Char) : Char :=
  if c = '\\' then '/' else c

/-- Adds the next segment to the segments in front of it, which are listed from the last to the
first. Above the root of an absolute path there is only the root. -/
def pushSegment (absolute : Bool) (stack : List Segment) (s : Segment) : List Segment :=
  if s = [] ∨ s = here then stack
  else if s = above then
    match stack with
    | last :: rest => if last ≠ above then rest else if absolute then stack else s :: stack
    | [] => if absolute then [] else [s]
  else s :: stack

/-- The segments of a normal path. -/
def normalSegments (absolute : Bool) (segments : List Segment) : List Segment :=
  (segments.foldl (pushSegment absolute) []).reverse

/-- Segments with slashes between them. -/
def joinSegments (segments : List Segment) : List Char :=
  List.intercalate ['/'] segments

/-- The normal form of a path given by its characters. -/
def normalizeChars (raw : List Char) : List Char :=
  let unified := (Text.trimChars raw).map unifySlash
  let absolute := unified.head? == some '/'
  let joined := joinSegments (normalSegments absolute (Text.splitOn '/' unified))
  if absolute then '/' :: joined else joined

/-- The normal form of a path. -/
def normalize (raw : String) : String :=
  String.ofList (normalizeChars raw.toList)

/-- The characters in front of the last slash; the root keeps its slash. -/
def parentChars (path : List Char) : List Char :=
  match path.reverse.dropWhile (· ≠ '/') with
  | [] => []
  | [slash] => [slash]
  | _ :: front => front.reverse

/-- The directory of a normal path, empty for a path without directory. -/
def parent (path : String) : String :=
  String.ofList (parentChars path.toList)

/-- The normal path of `relative` seen from the directory of `file`. -/
def resolve (file relative : String) : String :=
  let directory := parent file
  if directory = "" then normalize relative else normalize (directory ++ "/" ++ relative)

end CommitSplit.Path
