import CommitSplit.Proofs.Imports.Packages
import CommitSplit.Surface.Python.Reader

/-!
# Layouts of Python imports

A file of import statements at the top level. A statement stands on a logical line: it goes on behind
a backslash at the end of a line, and between parentheses over as many lines as it likes, with
comments at their ends. Several statements share a line with semicolons between them. A dotted name
is written in one piece, and the word `import` stands on the line of what it imports from: at the
start of a line it would look like another statement.
-/

namespace CommitSplit.Python

open Source (IsBlanks)

/-! ## Words and gaps -/

/-- A blank within a line. -/
def isSpace (c : Char) : Bool :=
  c ∈ [' ', '\t', '\x0c']

def IsSpaces (cs : List Char) : Prop :=
  ∀ c ∈ cs, isSpace c = true

structure IsName (cs : List Char) : Prop where
  some_char : cs ≠ []
  parts : ∀ c ∈ cs, Text.isWordChar c = true
  free : String.ofList cs ∉ keywords

/-- Names with dots between them. -/
inductive IsModule : List Char → Prop
  | names {names : List (List Char)} : names ≠ [] → (∀ name ∈ names, IsName name) →
      IsModule (List.intercalate ['.'] names)

/-- What may stand between two words or marks; the ends of lines count in parentheses only. -/
inductive IsGap (enclosed : Bool) : List Char → Prop
  | nil : IsGap enclosed []
  | space {c : Char} {gap : List Char} : isSpace c = true → IsGap enclosed gap →
      IsGap enclosed (c :: gap)
  | joined {ending gap : List Char} : Text.IsLineEnd ending → IsGap enclosed gap →
      IsGap enclosed ('\\' :: (ending ++ gap))
  | ending {ending gap : List Char} : enclosed = true → Text.IsLineEnd ending →
      IsGap enclosed gap → IsGap enclosed (ending ++ gap)
  | comment {cs ending gap : List Char} : enclosed = true → '\n' ∉ cs → Text.IsLineEnd ending →
      IsGap enclosed gap → IsGap enclosed ('#' :: (cs ++ (ending ++ gap)))

/-! ## Lists of names -/

/-- Another name for what is imported. -/
inductive IsAlias (enclosed : Bool) : List Char → Prop
  | none : IsAlias enclosed []
  | named {gap gap' name : List Char} : IsGap enclosed gap → gap ≠ [] → IsGap enclosed gap' →
      gap' ≠ [] → IsName name → IsAlias enclosed (gap ++ ("as".toList ++ (gap' ++ name)))

/-- What stands between two names of a list. -/
inductive IsSeparator (enclosed : Bool) : List Char → Prop
  | comma {renamed gap gap' : List Char} : IsAlias enclosed renamed → IsGap enclosed gap →
      IsGap enclosed gap' → IsSeparator enclosed ((renamed ++ gap) ++ ',' :: gap')

/-- What stands behind the last name of a list. -/
inductive IsEnding : Bool → List Char → Prop
  | bare {renamed : List Char} : IsAlias false renamed → IsEnding false renamed
  | gap {renamed gap : List Char} : IsAlias true renamed → IsGap true gap →
      IsEnding true (renamed ++ gap)
  | comma {behind : List Char} : IsSeparator true behind → IsEnding true behind

/-- A name in a list, and what stands behind it. -/
structure Item where
  name : List Char
  behind : List Char

/-- A list of names of some kind. -/
inductive IsList (enclosed : Bool) (isWord : List Char → Prop) : List Item → Prop
  | last {item : Item} : isWord item.name → IsEnding enclosed item.behind →
      IsList enclosed isWord [item]
  | cons {item : Item} {items : List Item} : isWord item.name →
      IsSeparator enclosed item.behind → IsList enclosed isWord items →
      IsList enclosed isWord (item :: items)

def spell (items : List Item) : List Char :=
  items.flatMap fun item => item.name ++ item.behind

theorem spell_nil : spell [] = [] := rfl

theorem spell_cons (item : Item) (items : List Item) :
    spell (item :: items) = item.name ++ (item.behind ++ spell items) := by
  simp [spell]

/-! ## Statements -/

/-- What names are imported from, and the gaps up to them. -/
structure Origin where
  behindFrom : List Char
  dots : Nat
  dotted : List Char
  behindModule : List Char
  behindImport : List Char
  /-- The gap behind an opening parenthesis. -/
  opening : Option (List Char)

namespace Origin

def module (o : Origin) : List Char :=
  List.replicate o.dots '.' ++ o.dotted

/-- The words in front of the names. -/
def front (o : Origin) : List Char :=
  "from".toList ++ (o.behindFrom ++ (o.module ++ (o.behindModule ++ "import".toList)))

theorem front_eq (o : Origin) : o.front =
    "from".toList ++ (o.behindFrom ++ (o.module ++ (o.behindModule ++ "import".toList))) := rfl

/-- What stands behind the word `import`. -/
def body (o : Origin) (items : List Item) : List Char :=
  match o.opening with
  | none => spell items
  | some gap => '(' :: (gap ++ (spell items ++ [')']))

/-- The names that may be imported. -/
inductive Imports (o : Origin) : List Item → Prop
  | names {items : List Item} : o.opening = none → o.behindImport ≠ [] →
      IsList false IsName items → Imports o items
  | all : o.opening = none → Imports o [⟨['*'], []⟩]
  | enclosed {gap : List Char} {items : List Item} : o.opening = some gap → IsGap true gap →
      IsList true IsName items → Imports o items

/-- Words are apart, and there is something to import from. -/
structure IsLegal (o : Origin) : Prop where
  dotted : o.dotted = [] ∨ IsModule o.dotted
  some_module : o.dots = 0 → o.dotted ≠ []
  behindFrom : IsGap false o.behindFrom
  from_apart : o.dots = 0 → o.behindFrom ≠ []
  behindModule : IsSpaces o.behindModule
  module_apart : o.dotted ≠ [] → o.behindModule ≠ []
  behindImport : IsGap false o.behindImport

end Origin

inductive Statement
  /-- Imports of modules. -/
  | modules (gap : List Char) (items : List Item)
  /-- Imports of names from a module or package. -/
  | names (origin : Origin) (items : List Item)

namespace Statement

def text : Statement → List Char
  | modules gap items => "import".toList ++ (gap ++ spell items)
  | names o items => o.front ++ (o.behindImport ++ o.body items)

theorem text_modules (gap : List Char) (items : List Item) :
    (modules gap items).text = "import".toList ++ (gap ++ spell items) := rfl

theorem text_names (o : Origin) (items : List Item) :
    (names o items).text = o.front ++ (o.behindImport ++ o.body items) := rfl

inductive IsLegal : Statement → Prop
  | modules {gap : List Char} {items : List Item} : IsGap false gap → gap ≠ [] →
      IsList false IsModule items → IsLegal (modules gap items)
  | names {o : Origin} {items : List Item} : o.IsLegal → o.Imports items → IsLegal (names o items)

end Statement

/-! ## Lines -/

/-- What may stand behind the statements of a line. -/
inductive IsLineRest : List Char → Prop
  | nil : IsLineRest []
  | blank {c : Char} {cs : List Char} : Text.isBlank c = true → c ≠ '\n' → IsLineRest cs →
      IsLineRest (c :: cs)
  | semicolon {cs : List Char} : IsLineRest cs → IsLineRest (';' :: cs)
  | comment {cs : List Char} : '\n' ∉ cs → IsLineRest ('#' :: cs)

/-- A logical line. -/
inductive Line
  /-- Without a statement. -/
  | empty (rest : List Char)
  /-- With a statement, others behind semicolons, and the blanks on both sides of those. -/
  | statements (first : Statement) (others : List ((List Char × List Char) × Statement))
      (rest : List Char)

namespace Line

def behindFirst (others : List ((List Char × List Char) × Statement)) (rest : List Char) :
    List Char :=
  (others.flatMap fun x => x.1.1 ++ ';' :: (x.1.2 ++ x.2.text)) ++ rest

def text : Line → List Char
  | empty rest => rest
  | statements first others rest => first.text ++ behindFirst others rest

/-- Legal statements behind semicolons, with spaces around those. -/
def AreLegal (others : List ((List Char × List Char) × Statement)) : Prop :=
  ∀ x ∈ others, (IsSpaces x.1.1 ∧ IsSpaces x.1.2) ∧ x.2.IsLegal

inductive IsLegal : Line → Prop
  | empty {rest : List Char} : IsLineRest rest → IsLegal (empty rest)
  | statements {first : Statement} {others : List ((List Char × List Char) × Statement)}
      {rest : List Char} : first.IsLegal → AreLegal others → IsLineRest rest →
      IsLegal (statements first others rest)

end Line

/-- The text of a file, line by line. -/
def textOf (lines : List Line) : List Char :=
  List.intercalate ['\n'] (lines.map Line.text)

end CommitSplit.Python
