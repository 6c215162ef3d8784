import CommitSplit.Options
import CommitSplit.Toml.Parser

/-!
# Configuration

A project keeps its options in the table `analysis` of a TOML document. What the table leaves out
has its default, and what it holds beyond the options is ignored.
-/

namespace CommitSplit

namespace Toml

def str? : Toml → Option String
  | str s => some s
  | _ => none

def bool? : Toml → Option Bool
  | bool b => some b
  | _ => none

def nat? : Toml → Option Nat
  | int (.ofNat n) => some n
  | _ => none

/-- The items of an array of either kind. -/
def items? : Toml → Option (List Toml)
  | array items | tables items => some items
  | _ => none

def strings? (v : Toml) : Option (List String) :=
  v.items?.bind fun items => items.mapM str?

/-- Whether the value is an array or a table that holds nothing. -/
def isEmpty : Toml → Bool
  | array [] | tables [] | table _ [] => true
  | _ => false

/-- One of the named constants, given by its name or as the only key of a table, with nothing behind
it. -/
def constant? (constants : List α) (name : α → String) : Toml → Option α
  | str s => constants.find? fun x => name x = s
  | table _ [(s, value)] =>
    if value.isEmpty then constants.find? fun x => name x = s else none
  | _ => none

/-- The fields of a record. A moment has no field that any record knows. -/
def fields? : Toml → Option (Fields Toml)
  | table _ members => some (.named members)
  | array items | tables items => some (.listed items)
  | moment => some (.named [])
  | _ => none

end Toml

/-- Options from a value. -/
def Options.ofToml? (v : Toml) : Option Options := do
  let mode := Toml.constant? ModeRequest.all ModeRequest.name
  ofFields? ⟨mode, Toml.strings?, Toml.bool?, Toml.nat?⟩ (← v.fields?)

/-- Options from a configuration; none if it is not readable. -/
def Options.ofConfig? (text : String) : Option Options := do
  match (← Toml.parse? text).lookup "analysis" with
  | some v => ofToml? v
  | none => some default

end CommitSplit
