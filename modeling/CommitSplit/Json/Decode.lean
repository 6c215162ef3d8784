import CommitSplit.Fields
import CommitSplit.Json.Basic

/-!
# Reading typed values

A record is read from an object, where unknown members are ignored, or from an array that lists its
fields in order. A named constant is read from its name, or from an object whose only member has
that name and is null. Nothing is converted: a number is no text and a fraction is no count.
-/

namespace CommitSplit.Json

def bool? : Json → Option Bool
  | bool b => some b
  | _ => none

def str? : Json → Option String
  | str s => some s
  | _ => none

/-- A whole number from zero up to, but not including, the bound. -/
def natBelow? (bound : Nat) : Json → Option Nat
  | int (.ofNat n) => if n < bound then some n else none
  | _ => none

/-- A count of 32 bits. -/
def word? : Json → Option Nat :=
  natBelow? 4294967296

/-- A count of 64 bits. -/
def long? : Json → Option Nat :=
  natBelow? 18446744073709551616

/-- An array whose items are all readable. -/
def list? (item : Json → Option α) : Json → Option (List α)
  | arr items => items.mapM item
  | _ => none

def strings? : Json → Option (List String) :=
  list? str?

/-- Null or a readable value. -/
def optional? (item : Json → Option α) : Json → Option (Option α)
  | null => some none
  | j => (item j).map some

/-- One of the named constants. -/
def constant? (constants : List α) (name : α → String) : Json → Option α
  | str s => constants.find? fun x => name x = s
  | obj [(s, null)] => constants.find? fun x => name x = s
  | _ => none

/-- The fields of a record with at most `count` of them. -/
def fields? (count : Nat) : Json → Option (Fields Json)
  | obj members => some (.named members)
  | arr items => if items.length ≤ count then some (.listed items) else none
  | _ => none

end CommitSplit.Json
