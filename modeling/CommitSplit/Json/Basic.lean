/-!
# JSON values

Objects keep their members in the order in which they are written. Whole numbers are the only
numbers the library writes; every other number is kept as the text it was read from, because no
field of a record accepts it.
-/

namespace CommitSplit

inductive Json
  | null
  | bool (value : Bool)
  | int (value : Int)
  | real (written : String)
  | str (value : String)
  | arr (items : List Json)
  | obj (members : List (String × Json))
  deriving Inhabited

namespace Json

/-- A natural number. -/
def nat (n : Nat) : Json :=
  int n

/-- A list of texts. -/
def strings (xs : List String) : Json :=
  arr (xs.map str)

/-- A value for each element. -/
def list (encode : α → Json) (xs : List α) : Json :=
  arr (xs.map encode)

/-- An absent value is null. -/
def optional (encode : α → Json) : Option α → Json
  | none => null
  | some x => encode x

end Json

end CommitSplit
