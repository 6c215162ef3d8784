import CommitSplit.Proofs.Imports.Python.Origins

/-!
# Scanning line by line

Two searches go over a file, and what they find is merged by the place where it stands. On a line at
most one of them finds something, so the merged specifiers are those of the first line and then those
of the rest of the file.
-/

namespace CommitSplit.Specifier

open Text (Capture Cursor Pattern)
open Text.Pattern

variable {α : Type} {x : Nat × α} {xs ys block : List (Nat × α)} {n : Nat}

/-! ## Merging -/

theorem insertByOffset_of_le (first : ∀ y ∈ xs, x.1 ≤ y.1) : insertByOffset x xs = x :: xs := by
  cases xs with
  | nil => rfl
  | cons y xs => exact if_pos (first y List.mem_cons_self)

theorem insertByOffset_append (last : ∀ y ∈ block, y.1 < x.1) :
    insertByOffset x (block ++ xs) = block ++ insertByOffset x xs := by
  induction block with
  | nil => rfl
  | cons y block ih =>
      obtain ⟨here, last⟩ := List.forall_mem_cons.mp last
      rw [List.cons_append, insertByOffset, if_neg (Nat.not_le.mpr here), ih last, List.cons_append]

theorem sortByOffset_cons (x : Nat × α) (xs : List (Nat × α)) :
    sortByOffset (x :: xs) = insertByOffset x (sortByOffset xs) := rfl

theorem sortByOffset_append (same : ∀ x ∈ block, x.1 = n) (behind : ∀ x ∈ xs, n < x.1) :
    sortByOffset (block ++ xs) = block ++ sortByOffset xs := by
  induction block with
  | nil => rfl
  | cons x block ih =>
      obtain ⟨here, same⟩ := List.forall_mem_cons.mp same
      rw [List.cons_append, sortByOffset_cons, ih same, insertByOffset_of_le, List.cons_append]
      intro y there
      rcases List.mem_append.mp there with inside | there
      · rw [here, same y inside]
      · have := behind y (mem_sortByOffset.mp there)
        omega

/-- What stands in front of all others comes first, whatever it is found among. -/
theorem sortByOffset_append_append (same : ∀ x ∈ block, x.1 = n)
    (behind : ∀ x ∈ xs ++ ys, n < x.1) :
    sortByOffset (xs ++ (block ++ ys)) = block ++ sortByOffset (xs ++ ys) := by
  induction xs with
  | nil => exact sortByOffset_append same behind
  | cons x xs ih =>
      obtain ⟨here, behind⟩ := List.forall_mem_cons.mp behind
      rw [List.cons_append, sortByOffset_cons, ih behind, insertByOffset_append, List.cons_append,
        sortByOffset_cons]
      intro y there
      rw [same y there]
      exact here

/-! ## What is read -/

/-- What an import of names gives, at the place of its module. -/
def fromEntries (path : String) (d : Cursor) : List (Nat × Specifier) :=
  match d.capture? 1, d.capture? 2 with
  | some module, some names =>
    (ofFromImport path module.text names.text).map fun s => (module.offset, s)
  | _, _ => []

/-- What an import of modules gives, at the place of its list. -/
def importEntries (d : Cursor) : List (Nat × Specifier) :=
  (d.capture? 1).toList.flatMap fun list =>
    (Text.splitOn ',' list.text).map fun module =>
      (list.offset, absoluteModule (Text.trimChars module))

theorem inPython_eq (path : String) (content : List Char) :
    inPython path content =
      (sortByOffset ((pythonFrom.findAll content).flatMap (fromEntries path) ++
        (pythonImport.findAll content).flatMap importEntries)).map Prod.snd := by
  have imports : (firstGroups pythonImport content).flatMap (fun list =>
      (Text.splitOn ',' list.text).map fun module =>
        (list.offset, absoluteModule (Text.trimChars module))) =
      (pythonImport.findAll content).flatMap importEntries := by
    rw [firstGroups, List.filterMap_eq_flatMap_toList, List.flatMap_assoc]
    rfl
  unfold inPython
  rw [← imports]
  rfl

end CommitSplit.Specifier

namespace CommitSplit.Python

open Source (IsBlanks)
open Specifier
open Text (Capture Cursor Pattern)
open Text.Pattern

variable {c c' : Cursor} {path : String} {block : List (Nat × Specifier)}
  {specifiers : List Specifier} {n : Nat}

/-- The specifiers that both searches read from a cursor on. -/
structure Reads (path : String) (c : Cursor) (specifiers : List Specifier) : Prop where
  merged : (sortByOffset ((pythonFrom.found c).flatMap (fromEntries path) ++
    (pythonImport.found c).flatMap importEntries)).map Prod.snd = specifiers
  behind : ∀ e ∈ (pythonFrom.found c).flatMap (fromEntries path) ++
    (pythonImport.found c).flatMap importEntries, c.offset ≤ e.1

theorem reads_at_end (nothing : c.rest = []) : Reads path c [] := by
  have none_from : pythonFrom.found c = [] := found_at_end nothing
  have none_import : pythonImport.found c = [] := found_at_end nothing
  exact ⟨by rw [none_from, none_import]; rfl, by rw [none_from, none_import]; exact nofun⟩

/-- A line gives what it gives to one of the searches, and then the others are read. -/
theorem Reads.of_line (next : Reads path c' specifiers) (same : ∀ e ∈ block, e.1 = n)
    (first : c.offset ≤ n) (last : n < c'.offset)
    (found : ((pythonFrom.found c).flatMap (fromEntries path) =
          block ++ (pythonFrom.found c').flatMap (fromEntries path) ∧
        pythonImport.found c = pythonImport.found c') ∨
      (pythonFrom.found c = pythonFrom.found c' ∧
        (pythonImport.found c).flatMap importEntries =
          block ++ (pythonImport.found c').flatMap importEntries)) :
    Reads path c (block.map Prod.snd ++ specifiers) := by
  have behind : ∀ e ∈ (pythonFrom.found c').flatMap (fromEntries path) ++
      (pythonImport.found c').flatMap importEntries, n < e.1 :=
    fun e there => Nat.lt_of_lt_of_le last (next.behind e there)
  have bound : ∀ e ∈ block, c.offset ≤ e.1 := fun e there => by rw [same e there]; exact first
  rcases found with ⟨found_from, found_import⟩ | ⟨found_from, found_import⟩
  · refine ⟨?_, ?_⟩
    · rw [found_from, found_import, List.append_assoc, sortByOffset_append same behind,
        List.map_append, next.merged]
    · rw [found_from, found_import, List.append_assoc]
      exact List.forall_mem_append.mpr ⟨bound, fun e there => by have := behind e there; omega⟩
  · refine ⟨?_, ?_⟩
    · rw [found_from, found_import, sortByOffset_append_append same behind, List.map_append,
        next.merged]
    · rw [found_from, found_import]
      obtain ⟨in_from, in_import⟩ := List.forall_mem_append.mp behind
      refine List.forall_mem_append.mpr ⟨fun e there => ?_,
        List.forall_mem_append.mpr ⟨bound, fun e there => ?_⟩⟩
      · have := in_from e there
        omega
      · have := in_import e there
        omega

theorem Reads.of_found (next : Reads path c' specifiers) (later : c.offset ≤ c'.offset)
    (found_from : pythonFrom.found c = pythonFrom.found c')
    (found_import : pythonImport.found c = pythonImport.found c') : Reads path c specifiers := by
  refine ⟨by rw [found_from, found_import, next.merged], ?_⟩
  rw [found_from, found_import]
  exact fun e there => Nat.le_trans later (next.behind e there)

end CommitSplit.Python
