import CommitSplit.Text.Blank

/-!
# Names and extensions

The name of a path is its last segment; slashes and `.` segments behind it do not count, and `..` is
no name. The extension is what follows the last dot of the name, unless that dot begins it.
-/

namespace CommitSplit.Path

/-- The name at the end of a path given by its characters. -/
def nameChars? (path : List Char) : Option (List Char) :=
  let segments := (Text.splitOn '/' path).filter fun s => s ≠ [] && s ≠ ['.']
  match segments.getLast? with
  | some name => if name = ['.', '.'] then none else some name
  | none => none

/-- The name at the end of a path. -/
def name? (path : String) : Option String :=
  (nameChars? path.toList).map String.ofList

/-- The extension of a name given by its characters. -/
def extensionOfName? (name : List Char) : Option (List Char) :=
  match name.reverse.dropWhile (· ≠ '.') with
  | [] => none
  | [_] => none
  | _ => some (name.reverse.takeWhile (· ≠ '.')).reverse

/-- The extension of the name of a path. -/
def extension? (path : String) : Option String :=
  ((nameChars? path.toList).bind extensionOfName?).map String.ofList

/-- Whether the path starts at the root of the file system. -/
def isAbsolute (path : String) : Bool :=
  path.toList.head? = some '/'

/-- The path seen from `root`. An absolute path stays as it is; a slash is put between the two
unless `root` is empty or ends in one. -/
def join (root path : String) : String :=
  if isAbsolute path || root = "" then path
  else if root.toList.getLast? = some '/' then root ++ path
  else root ++ "/" ++ path

end CommitSplit.Path
