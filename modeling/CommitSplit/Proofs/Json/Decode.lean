import CommitSplit.Json.Decode
import Mathlib.Data.List.Basic

/-!
# Reading what was written

Every kind of value that a record holds is read back from the data that is written for it. A field
of a record is found under its name, whatever stands around it.
-/

namespace CommitSplit

namespace Fields

variable {α β : Type} {members : List (String × α)} {place : Nat} {key : String} {value : α}
  {read : α → Option β}

theorem required?_named (found : members.lookup key = some value) :
    (named members).required? place key read = read value := by
  rw [required?, find?, found, Option.bind_some]

theorem orElse?_named_of_some {absent : β} (found : members.lookup key = some value) :
    (named members).orElse? place key read absent = read value := by
  simp only [orElse?, find?, found]

/-- A field that is left out when it is absent is read back, absent or not. -/
theorem orElse?_named_of_map {encode : β → α} {read : α → Option (Option β)} {x : Option β}
    (found : members.lookup key = x.map encode)
    (back : ∀ y ∈ x, read (encode y) = some (some y)) :
    (named members).orElse? place key read none = some x := by
  cases x with
  | none => simp only [orElse?, find?, found, Option.map_none]
  | some y => simp only [orElse?, find?, found, Option.map_some, back y rfl]

end Fields

namespace Json

variable {α : Type}

@[simp] theorem fields?_obj (count : Nat) (members : List (String × Json)) :
    (obj members).fields? count = some (.named members) := rfl

@[simp] theorem str?_str (s : String) : (str s).str? = some s := rfl

@[simp] theorem bool?_bool (b : Bool) : (bool b).bool? = some b := rfl

theorem natBelow?_nat {bound n : Nat} (fits : n < bound) : natBelow? bound (nat n) = some n :=
  if_pos fits

theorem list?_list {encode : α → Json} {item : Json → Option α} {xs : List α}
    (back : ∀ x ∈ xs, item (encode x) = some x) : list? item (list encode xs) = some xs := by
  induction xs with
  | nil => rfl
  | cons x xs ih =>
      obtain ⟨first, rest⟩ := List.forall_mem_cons.mp back
      have rest : (xs.map encode).mapM item = some xs := ih rest
      simp [list?, list, first, rest]

@[simp] theorem strings?_strings (xs : List String) : (strings xs).strings? = some xs :=
  list?_list fun _ _ => rfl

/-- A value that is not written as null is not taken for an absent one. -/
theorem optional?_of_ne_null {item : Json → Option α} {j : Json} (present : j ≠ null) :
    optional? item j = (item j).map some := by
  cases j with
  | null => exact absurd rfl present
  | _ => rfl

/-- A constant is read back from its name when no other constant has that name. -/
theorem constant?_str {constants : List α} {name : α → String} {x : α} (known : x ∈ constants)
    (unique : ∀ y ∈ constants, name y = name x → y = x) :
    constant? constants name (str (name x)) = some x := by
  have found : (constants.find? fun y => name y = name x).isSome := by
    rw [List.find?_isSome]
    exact ⟨x, known, decide_eq_true rfl⟩
  obtain ⟨y, hy⟩ := Option.isSome_iff_exists.mp found
  rw [constant?, hy, unique y (List.mem_of_find?_eq_some hy)
    (of_decide_eq_true (List.find?_some hy :))]

end Json

end CommitSplit
