import CommitSplit.Proofs.Imports.Lines
import CommitSplit.Surface.Names
import CommitSplit.Surface.Script.Lexer
import Mathlib.Data.List.Chain

/-!
# Spaced layouts of imports

An import statement, or an export from a module, is a list of words and marks in front of the quoted
name of the module. In a spaced layout it begins on a line of its own and blanks stand wherever a
word meets a word, a star or an opening brace. A header of a script holds such statements, and
comments, line by line. The grammar of scripts asks for less: of two words only.
-/

namespace CommitSplit.Script

open Source (IsBlanks IsComment IsLineRest)

/-- A word or mark of a statement. -/
inductive Atom
  | word (text : String)
  /-- The quoted name of a module. -/
  | name (mark : Char) (text : List Char)
  | star
  | comma
  | opening
  | closing

/-- A name that both patterns and tokens take for a word. -/
structure IsWord (t : String) : Prop where
  begins : ∃ c cs, t.toList = c :: cs ∧ c.isDigit = false
  parts : ∀ c ∈ t.toList, isWordPart c = true ∧ (Text.isWordChar c = true ∨ c = '$')

theorem isWord_iff {t : String} : IsWord t ↔ (t.toList.head?.any fun c => !c.isDigit) = true ∧
    (t.toList.all fun c => isWordPart c && (Text.isWordChar c || c = '$')) = true := by
  simp only [Source.head?_any_iff, List.all_eq_true, Bool.and_eq_true, Bool.or_eq_true,
    Bool.not_eq_true', decide_eq_true_eq]
  exact ⟨fun h => ⟨h.begins, h.parts⟩, fun h => ⟨h.1, h.2⟩⟩

instance : DecidablePred IsWord :=
  fun _ => decidable_of_iff _ isWord_iff.symm

/-- A character that is no part of any word is not in it. -/
theorem IsWord.ne {t : String} (h : IsWord t) {c x : Char} (hc : c ∈ t.toList)
    (other : Text.isWordChar x = false ∧ x ≠ '$') : c ≠ x := by
  rintro rfl
  rcases (h.parts c hc).2 with part | dollar
  · rw [other.1] at part
    cases part
  · exact other.2 dollar

/-- The name of a module without anything that a string would have to escape. -/
structure IsName (cs : List Char) : Prop where
  some_char : cs ≠ []
  plain : ∀ c ∈ cs, isQuote c = false ∧ c ≠ '\\' ∧ c ≠ '\n'

instance : DecidablePred IsName :=
  fun cs => decidable_of_iff
    (cs ≠ [] ∧ (cs.all fun c => isQuote c = false ∧ c ≠ '\\' ∧ c ≠ '\n') = true)
    ⟨fun h => ⟨h.1, List.all_iff_forall_prop.mp h.2⟩,
      fun h => ⟨h.some_char, List.all_iff_forall_prop.mpr h.plain⟩⟩

namespace Atom

def text : Atom → List Char
  | word t => t.toList
  | name mark t => mark :: (t ++ [mark])
  | star => ['*']
  | comma => [',']
  | opening => ['\x7b']
  | closing => ['\x7d']

def Fine : Atom → Prop
  | word t => IsWord t
  | name mark t => mark ∈ Specifier.quotes.toList ∧ IsName t
  | _ => True

instance : DecidablePred Fine
  | word t => inferInstanceAs (Decidable (IsWord t))
  | name mark t => inferInstanceAs (Decidable (mark ∈ Specifier.quotes.toList ∧ IsName t))
  | star | comma | opening | closing => inferInstanceAs (Decidable True)

/-- Whether a blank has to stand between two words or marks. -/
def needsGap : Atom → Atom → Bool
  | word _, comma | word _, closing => false
  | word _, _ => true
  | star, word _ | star, star => true
  | closing, word _ => true
  | _, _ => false

/-- Words and commas, as they stand in a list of names. -/
def isListed : Atom → Bool
  | word _ | comma => true
  | _ => false

end Atom

open Atom

theorem Atom.text_ne_nil {a : Atom} (fine : a.Fine) : a.text ≠ [] := by
  cases a with
  | word t =>
      obtain ⟨c, cs, spelled, -⟩ := fine.begins
      exact fun nothing => List.cons_ne_nil c cs (spelled.symm.trans nothing)
  | name _ _ | star | comma | opening | closing => exact List.cons_ne_nil _ _

/-! ## Statements -/

/-- What stands between the word that begins a statement and the name of the module: braces match,
and outside of them no word begins another statement. -/
def Clause : Nat → List Atom → Prop
  | depth, [] => depth = 0
  | depth, word t :: atoms => (depth = 0 → t ≠ "import" ∧ t ≠ "export") ∧ Clause depth atoms
  | depth, opening :: atoms => Clause (depth + 1) atoms
  | depth, closing :: atoms => 0 < depth ∧ Clause (depth - 1) atoms
  | _, name _ _ :: _ => False
  | depth, .star :: atoms | depth, comma :: atoms => Clause depth atoms

/-- The front of an import, up to the name of the module. -/
inductive IsImport : List Atom → Prop
  | bare : IsImport [word "import"]
  | clause {atoms : List Atom} : Clause 0 atoms → atoms ≠ [] →
      (∀ a ∈ atoms.head?, (word "import").needsGap a = true) →
      (∀ a ∈ atoms.getLast?, a.needsGap (word "from") = true) →
      IsImport (word "import" :: (atoms ++ [word "from"]))

/-- The word behind `export` if types are exported. -/
def typing (typed : Bool) : List Atom :=
  if typed then [word "type"] else []

/-- The front of an export from a module. -/
inductive IsReexport : List Atom → Prop
  | everything (typed : Bool) :
      IsReexport (word "export" :: (typing typed ++ [Atom.star, word "from"]))
  | renamed (typed : Bool) {t : String} : t ≠ "import" → t ≠ "export" → '$' ∉ t.toList →
      IsReexport (word "export" :: (typing typed ++ [Atom.star, word "as", word t, word "from"]))
  | listed (typed : Bool) {atoms : List Atom} : (∀ a ∈ atoms, a.isListed = true) →
      IsReexport (word "export" :: (typing typed ++ opening :: (atoms ++ [closing, word "from"])))

/-- The depth of brackets behind a word or mark. -/
def Atom.depthAfter (depth : Nat) : Atom → Nat
  | opening => depth + 1
  | closing => depth - 1
  | _ => depth

theorem Clause.tail {depth : Nat} {a : Atom} {atoms : List Atom} (h : Clause depth (a :: atoms)) :
    Clause (a.depthAfter depth) atoms := by
  cases a with
  | name _ _ => exact h.elim
  | word _ | closing => exact h.2
  | star | comma | opening => exact h

theorem Clause.ne_name {depth : Nat} {atoms : List Atom} (h : Clause depth atoms) :
    ∀ a ∈ atoms, ∀ mark t, a ≠ name mark t := by
  induction atoms generalizing depth with
  | nil => nofun
  | cons a atoms ih =>
      refine List.forall_mem_cons.mpr ⟨?_, ih h.tail⟩
      rintro mark t rfl
      exact h.elim

theorem Clause.append {depth : Nat} {atoms more : List Atom} (h : Clause depth atoms)
    (h' : Clause 0 more) : Clause depth (atoms ++ more) := by
  induction atoms generalizing depth with
  | nil =>
      obtain rfl : depth = 0 := h
      exact h'
  | cons a atoms ih =>
      have behind := ih h.tail
      cases a with
      | name _ _ => exact h.elim
      | word _ | closing => exact ⟨h.1, behind⟩
      | opening | star | comma => exact behind

/-- Behind its first word an import is a clause. -/
theorem IsImport.exists_clause {atoms : List Atom} (h : IsImport atoms) :
    ∃ tail, atoms = word "import" :: tail ∧ Clause 0 tail := by
  cases h with
  | bare => exact ⟨[], rfl, rfl⟩
  | clause closed _ _ _ =>
      have from_clause : Clause 0 [word "from"] := ⟨fun _ => by decide, rfl⟩
      exact ⟨_, rfl, closed.append from_clause⟩

theorem clause_listed {atoms more : List Atom} (listed : ∀ a ∈ atoms, a.isListed = true)
    (h : Clause 1 more) : Clause 1 (atoms ++ more) := by
  induction atoms with
  | nil => exact h
  | cons a atoms ih =>
      obtain ⟨first, others⟩ := List.forall_mem_cons.mp listed
      cases a with
      | word t => exact ⟨nofun, ih others⟩
      | comma => exact ih others
      | name _ _ | star | opening | closing => cases first

theorem IsReexport.exists_clause {atoms : List Atom} (h : IsReexport atoms) :
    ∃ tail, atoms = word "export" :: tail ∧ Clause 0 tail := by
  have typing_clause (typed : Bool) : Clause 0 (typing typed) := by
    cases typed <;> simp [typing, Clause]
  cases h with
  | everything typed => exact ⟨_, rfl, (typing_clause typed).append (by simp [Clause])⟩
  | renamed typed other other' _ =>
      exact ⟨_, rfl, (typing_clause typed).append (by simp [Clause, other, other'])⟩
  | listed typed listed =>
      exact ⟨_, rfl, (typing_clause typed).append (clause_listed listed (by simp [Clause]))⟩

theorem exists_clause_of_front {atoms : List Atom} (front : IsImport atoms ∨ IsReexport atoms) :
    ∃ keyword tail, atoms = word keyword :: tail ∧ Clause 0 tail := by
  rcases front with front | front <;> obtain ⟨tail, atoms, clause⟩ := front.exists_clause
  · exact ⟨_, tail, atoms, clause⟩
  · exact ⟨_, tail, atoms, clause⟩

/-! ## Texts -/

/-- The text of words and marks, each with the blanks behind it. -/
def spell (xs : List (Atom × List Char)) : List Char :=
  xs.flatMap fun x => x.1.text ++ x.2

@[simp] theorem spell_nil : spell [] = [] := rfl

@[simp] theorem spell_cons (x : Atom × List Char) (xs : List (Atom × List Char)) :
    spell (x :: xs) = x.1.text ++ (x.2 ++ spell xs) := by
  simp [spell]

@[simp] theorem spell_append (xs ys : List (Atom × List Char)) :
    spell (xs ++ ys) = spell xs ++ spell ys := by
  simp [spell]

/-- A spaced layout. -/
structure Spaced (xs : List (Atom × List Char)) : Prop where
  fine : ∀ x ∈ xs, x.1.Fine ∧ IsBlanks x.2
  apart : xs.IsChain fun x y => x.1.needsGap y.1 = true → x.2 ≠ []

instance : DecidablePred Spaced :=
  fun xs => decidable_of_iff ((∀ x ∈ xs, x.1.Fine ∧ IsBlanks x.2) ∧
      xs.IsChain fun x y => x.1.needsGap y.1 = true → x.2 ≠ [])
    ⟨fun h => ⟨h.1, h.2⟩, fun h => ⟨h.fine, h.apart⟩⟩

namespace Spaced

variable {xs ys : List (Atom × List Char)} {x y : Atom × List Char}

theorem right (xs : List (Atom × List Char)) (h : Spaced (xs ++ ys)) : Spaced ys where
  fine z hz := h.fine z (List.mem_append_right xs hz)
  apart := h.apart.right_of_append

theorem tail (h : Spaced (x :: xs)) : Spaced xs :=
  right [x] h

theorem gap_ne_nil (xs : List (Atom × List Char)) (h : Spaced (xs ++ x :: y :: ys))
    (needed : x.1.needsGap y.1 = true) : x.2 ≠ [] :=
  (List.isChain_append_cons_cons.mp h.apart).2.1 needed

end Spaced

/-- A header with the names of the modules that it mentions. -/
inductive Header : List (List Char) → List Char → Prop
  | nil : Header [] []
  | comment {names : List (List Char)} {gap cs text : List Char} : IsBlanks gap → IsComment cs →
      Header names text → Header names (gap ++ (cs ++ text))
  | statement {names : List (List Char)} {gap behind text module : List Char} {mark : Char}
      {xs : List (Atom × List Char)} : IsBlanks gap →
      IsImport (xs.map Prod.fst) ∨ IsReexport (xs.map Prod.fst) →
      Spaced (xs ++ [(name mark module, [])]) → IsLineRest behind → Header names text →
      Header (module :: names) (gap ++ (spell xs ++ (mark :: (module ++ mark :: (behind ++ text)))))

theorem Header.ne_nil {names : List (List Char)} {text : List Char} (h : Header names text) :
    ∀ name ∈ names, name ≠ [] := by
  induction h with
  | nil => nofun
  | comment _ _ _ ih => exact ih
  | @statement _ _ _ _ _ _ xs _ _ spaced _ _ ih =>
      have fine := spaced.fine _ (List.mem_append_right xs (List.mem_singleton_self _))
      exact List.forall_mem_cons.mpr ⟨fine.1.2.some_char, ih⟩

end CommitSplit.Script
