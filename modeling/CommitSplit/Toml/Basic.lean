/-!
# TOML values

A document is a table, filled key by key. A table remembers how it came about, because that decides
who may still add to it: keys with dots add to the tables that such keys have made, a header turns a
table that was only implied by longer headers into one of its own, and an inline table is complete.
-/

namespace CommitSplit

/-- How a table came about. -/
inductive Toml.Origin
  | header
  /-- On the way to another header. -/
  | implied
  /-- On the way to a key with dots. -/
  | dotted
  | inline
  deriving DecidableEq, Inhabited

inductive Toml
  | str (value : String)
  | int (value : Int)
  | float
  | bool (value : Bool)
  | moment
  | array (items : List Toml)
  /-- Tables under headers of one name; the last one is open. -/
  | tables (elements : List Toml)
  | table (origin : Toml.Origin) (members : List (String × Toml))
  deriving Inhabited

namespace Toml

abbrev Members :=
  List (String × Toml)

/-- The members with one of them set by a function of what it was; none if that fails. -/
def Members.update (ms : Members) (key : String) (f : Option Toml → Option Toml) : Option Members :=
  match ms with
  | [] => (f none).map fun v => [(key, v)]
  | (k, old) :: rest =>
    if k = key then (f (some old)).map fun v => (k, v) :: rest
    else (update rest key f).map ((k, old) :: ·)

/-- Gives a key with dots a value. Nothing is replaced, and only tables made by such keys grow. -/
def Members.define : List String → Toml → Members → Option Members
  | [], _, _ => none
  | [key], value, ms =>
    update ms key fun
      | none => some value
      | some _ => none
  | key :: keys, value, ms =>
    update ms key fun
      | none => (define keys value []).map (table .dotted)
      | some (table .dotted inner) => (define keys value inner).map (table .dotted)
      | some _ => none

/-- Changes what is behind the last key of a header. The tables on the way are made where they are
missing; of tables under one header the last is meant. -/
def Members.atHeader (f : Option Toml → Option Toml) : List String → Members → Option Members
  | [], _ => none
  | [key], ms => update ms key f
  | key :: keys, ms =>
    update ms key fun
      | none => (atHeader f keys []).map (table .implied)
      | some (table .inline _) => none
      | some (table origin inner) => (atHeader f keys inner).map (table origin)
      | some (tables elements) =>
        match elements.getLast? with
        | some (table origin inner) =>
          (atHeader f keys inner).map fun inner =>
            tables (elements.dropLast ++ [table origin inner])
        | _ => none
      | some _ => none

/-- Opens the table of a header, which is opened once. -/
def Members.openTable (header : List String) (ms : Members) : Option Members :=
  atHeader (fun
    | none => some (table .header [])
    | some (table .implied inner) => some (table .header inner)
    | some _ => none) header ms

/-- Opens a further table under the header of an array. -/
def Members.openElement (header : List String) (ms : Members) : Option Members :=
  atHeader (fun
    | none => some (tables [table .header []])
    | some (tables elements) => some (tables (elements ++ [table .header []]))
    | some _ => none) header ms

/-- Gives a key a value in the table that a header has opened; without header, in the document. -/
def Members.defineIn (header keys : List String) (value : Toml) (ms : Members) : Option Members :=
  if header = [] then define keys value ms
  else
    atHeader (fun
      | some (table origin inner) => (define keys value inner).map (table origin)
      | some (tables elements) =>
        match elements.getLast? with
        | some (table origin inner) =>
          (define keys value inner).map fun inner =>
            tables (elements.dropLast ++ [table origin inner])
        | _ => none
      | _ => none) header ms

end Toml

end CommitSplit
