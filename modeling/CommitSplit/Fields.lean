/-!
# Fields of records

The fields of a record are given by their names, or listed in the order in which the record has
them.
-/

namespace CommitSplit

inductive Fields (α : Type)
  | named (members : List (String × α))
  | listed (items : List α)
  deriving Inhabited

namespace Fields

/-- The field with the given place and name. -/
def find? (f : Fields α) (place : Nat) (name : String) : Option α :=
  match f with
  | named members => members.lookup name
  | listed items => items[place]?

/-- A field that has to be there. -/
def required? (f : Fields α) (place : Nat) (name : String) (read : α → Option β) : Option β :=
  (f.find? place name).bind read

/-- A field that may be left out. -/
def orElse? (f : Fields α) (place : Nat) (name : String) (read : α → Option β) (absent : β) :
    Option β :=
  match f.find? place name with
  | none => some absent
  | some value => read value

end Fields

end CommitSplit
