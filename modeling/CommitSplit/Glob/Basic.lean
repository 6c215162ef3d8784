/-!
# Glob patterns

A glob is a list of tokens. `*` and `?` also match a slash; `**` stands for whole directories where
it fills a path component. Reading fails only for an unclosed class or group, a group that was never
opened, a reversed range or a backslash at the end.
-/

namespace CommitSplit

namespace Glob

inductive Token
  | literal (c : Char)
  /-- One byte. -/
  | any
  /-- Any number of bytes. -/
  | stars
  /-- Any directories in front, also none: `**/` at the start. -/
  | leadingDirs
  /-- Everything below a directory: `/**` at the end. -/
  | trailingDirs
  /-- One slash or any directories between two: `/**/`. -/
  | innerDirs
  | class (negated : Bool) (ranges : List (Char × Char))
  | choice (branches : List (List Token))
  deriving Inhabited

/-- Why a text is no glob. -/
inductive Fault
  | unclosedClass
  | reversedRange (first last : Char)
  | unclosedChoice
  | unopenedChoice
  | danglingEscape
  deriving DecidableEq

def Fault.message : Fault → String
  | unclosedClass => "unclosed character class; missing ']'"
  | reversedRange first last =>
    "invalid range; '" ++ first.toString ++ "' > '" ++ last.toString ++ "'"
  | unclosedChoice =>
    "unclosed alternate group; missing '\x7d' (maybe escape '\x7b' with '[\x7b]'?)"
  | unopenedChoice =>
    "unopened alternate group; missing '\x7b' (maybe escape '\x7d' with '[\x7d]'?)"
  | danglingEscape => "dangling '\\'"

end Glob

/-- A glob as a token list. -/
structure Glob where
  tokens : List Glob.Token
  deriving Inhabited

end CommitSplit
