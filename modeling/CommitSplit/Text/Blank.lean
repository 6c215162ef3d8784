/-!
# Blank characters, trimming and lines

A blank is a character with the Unicode property `White_Space`. Every reader of the library trims,
splits and skips by this one class. Texts are handled as lists of characters and wrapped into
strings at the edge, so that statements about them go by induction.
-/

namespace CommitSplit.Text

/-- Whether the code point of `c` lies in one of the closed ranges. -/
def inRanges (ranges : List (Nat × Nat)) (c : Char) : Bool :=
  ranges.any fun range => range.1 ≤ c.toNat && c.toNat ≤ range.2

/-- The Unicode property `White_Space` as closed ranges of code points. -/
def blankRanges : List (Nat × Nat) :=
  [(0x9, 0xd), (0x20, 0x20), (0x85, 0x85), (0xa0, 0xa0), (0x1680, 0x1680), (0x2000, 0x200a),
    (0x2028, 0x2029), (0x202f, 0x202f), (0x205f, 0x205f), (0x3000, 0x3000)]

/-- Whether `c` is a blank. -/
def isBlank (c : Char) : Bool :=
  inRanges blankRanges c

/-- The list without its longest tail of elements that satisfy `p`. -/
def dropEndWhile (p : α → Bool) (xs : List α) : List α :=
  (xs.reverse.dropWhile p).reverse

/-- The characters without the blanks at both ends. -/
def trimChars (cs : List Char) : List Char :=
  dropEndWhile isBlank (cs.dropWhile isBlank)

/-- Whether the text holds blanks only. -/
def isBlankText (s : String) : Bool :=
  s.toList.all isBlank

/-- The pieces between the separators, in order; there is one more piece than separators. -/
def splitOn (separator : Char) (cs : List Char) : List (List Char) :=
  cs.splitOnP (· = separator)

/-- A line feed may be preceded by a carriage return, which is no part of the line. -/
def dropReturn (line : List Char) : List Char :=
  if line.getLast? = some '\r' then line.dropLast else line

/-- Lines from the pieces between line feeds: the last piece was not ended by a line feed, so it is
a line only when it is not empty, and it keeps a carriage return. -/
def linesOfPieces : List (List Char) → List (List Char)
  | [] => []
  | [last] => if last = [] then [] else [last]
  | piece :: pieces => dropReturn piece :: linesOfPieces pieces

/-- The lines of a text. -/
def lines (s : String) : List String :=
  (linesOfPieces (splitOn '\n' s.toList)).map String.ofList

/-- The characters up to the first blank after leading blanks are skipped. -/
def firstWord (cs : List Char) : List Char :=
  (cs.dropWhile isBlank).takeWhile fun c => !isBlank c

theorem dropEndWhile_nil (p : α → Bool) : dropEndWhile p [] = [] := rfl

/-- Every character that core counts as whitespace is a blank. -/
theorem isBlank_of_isWhitespace (c : Char) (h : c.isWhitespace) : isBlank c := by
  have cases : c = ' ' ∨ c = '\t' ∨ c = '\r' ∨ c = '\n' := by
    simpa [Char.isWhitespace, or_assoc] using h
  rcases cases with rfl | rfl | rfl | rfl <;> rfl

end CommitSplit.Text
