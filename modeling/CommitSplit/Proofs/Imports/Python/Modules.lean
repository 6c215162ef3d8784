import CommitSplit.Proofs.Imports.Python.Names
import CommitSplit.Proofs.Imports.Python.Search

/-!
# Imports of modules

An import of modules is found if only blanks stand behind its word. Its list is taken in up to the
first module behind which there is something else than blanks and a comma.
-/

namespace CommitSplit.Python

open Source (IsBlanks)
open Specifier
open Text (Capture Cursor Pattern)
open Text.Pattern

variable {c d : Cursor} {q : Pattern} {s : String} {enclosed : Bool}
  {gap behind renamed tail more rest text : List Char} {item : Item} {items : List Item} {x : Char}

/-! ## The first visible character -/

/-- The first character of a text that is no blank. -/
def leader (text : List Char) : Option Char :=
  (text.dropWhile Text.isBlank).head?

theorem leader_append_blanks (blanks : IsBlanks gap) (more : List Char) :
    leader (gap ++ more) = leader more := by
  rw [leader, List.dropWhile_append_of_pos blanks, leader]

theorem leader_cons (visible : Text.isBlank x = false) (more : List Char) :
    leader (x :: more) = some x := by
  rw [leader, List.dropWhile_cons_of_neg (by simp [visible])]
  rfl

/-- Outside of parentheses a gap is blank, or a backslash is the first thing in it. -/
theorem IsGap.leader_append (h : IsGap false gap) (more : List Char) :
    IsBlanks gap ∨ leader (gap ++ more) = some '\\' := by
  induction h with
  | nil => exact .inl nofun
  | @space c gap space _ ih =>
      have blank := isBlank_of_isSpace space
      refine ih.imp (fun blanks => List.forall_mem_cons.mpr ⟨blank, blanks⟩) fun leads => ?_
      rw [List.cons_append, ← List.singleton_append,
        leader_append_blanks (List.forall_mem_singleton.mpr blank), leads]
  | joined _ _ _ => exact .inr (leader_cons (by decide) _)
  | ending enclosed _ _ _ | comment enclosed _ _ _ _ => cases enclosed

/-- What may follow a statement: no other part of it. -/
structure EndsStatement (more : List Char) : Prop where
  word : EndsWord more
  list : leader more ≠ some ','

/-! ## Lists of modules -/

/-- A list goes on with a comma and another module. -/
def Continues (text : List Char) : Prop :=
  ∃ gap gap' x rest, IsBlanks gap ∧ IsBlanks gap' ∧ isModuleChar x = true ∧
    text = gap ++ ',' :: (gap' ++ x :: rest)

theorem Continues.leader_eq (h : Continues text) : leader text = some ',' := by
  obtain ⟨gap, gap', x, rest, blanks, -, -, rfl⟩ := h
  rw [leader_append_blanks blanks, leader_cons (by decide)]

/-- An alias comes before any comma. -/
theorem IsAlias.eq_nil_of_leader_eq (h : IsAlias false renamed)
    (comma : leader (renamed ++ more) = some ',') : renamed = [] := by
  cases h with
  | none => rfl
  | @named gap gap' name spaced _ _ _ _ =>
      have as_first : leader ("as".toList ++ (gap' ++ name) ++ more) = some 'a' :=
        leader_cons (by decide) _
      rw [List.append_assoc] at comma
      rcases spaced.leader_append ("as".toList ++ (gap' ++ name) ++ more) with blanks | backslash
      · rw [leader_append_blanks blanks, as_first] at comma
        exact absurd comma (by decide)
      · rw [backslash] at comma
        exact absurd comma (by decide)

/-- Behind the last module of a list there is no other one. -/
theorem IsEnding.not_continues (h : IsEnding false behind) (other : leader more ≠ some ',') :
    ¬Continues (behind ++ more) := by
  intro continues
  cases h with
  | bare named =>
      have leads := continues.leader_eq
      rw [named.eq_nil_of_leader_eq leads] at leads
      exact other leads

/-- A list that goes on has only blanks around the comma. -/
theorem IsSeparator.all_of_continues (h : IsSeparator false behind)
    (continues : Continues (behind ++ more)) : behind.all isListChar = true := by
  obtain @⟨renamed, gap, gap', named, spaced, spaced'⟩ := h
  have leads := continues.leader_eq
  rw [List.append_assoc, List.append_assoc] at leads
  obtain rfl := named.eq_nil_of_leader_eq leads
  have text : ([] ++ gap ++ ',' :: gap') ++ more = gap ++ ',' :: (gap' ++ more) := by simp
  obtain ⟨u, v, x, rest, blanks, blanks', part, split⟩ := continues
  have visible : Text.isBlank x = false := isBlank_of_isModuleChar part
  have front : IsBlanks gap := by
    rcases spaced.leader_append (',' :: gap' ++ more) with front | backslash
    · exact front
    · rw [List.nil_append, backslash] at leads
      exact absurd leads (by decide)
  obtain ⟨-, -, behind⟩ := eq_of_isBlanks_append front blanks (by decide) (by decide)
    (text.symm.trans split)
  have back : IsBlanks gap' := by
    rcases spaced'.leader_append more with back | backslash
    · exact back
    · rw [behind, leader_append_blanks blanks', leader_cons visible] at backslash
      obtain rfl := Option.some.inj backslash
      exact absurd part (by decide)
  have blank_listed {gap : List Char} (blanks : IsBlanks gap) : gap.all isListChar = true :=
    List.all_eq_true.mpr fun x there => by simp [isListChar, blanks x there]
  rw [List.nil_append, List.all_append, List.all_cons, blank_listed front, blank_listed back]
  rfl

/-- The part of the pattern of imports that takes in another module. -/
def furtherModule : Pattern :=
  sequence [many blank, Pattern.text ",", many blank, many1 (one isModuleChar)]

theorem continues_of_mem_run (h : d ∈ furtherModule.run c) : Continues c.rest := by
  obtain ⟨c₁, front, h⟩ := mem_run_seq.mp h
  obtain ⟨c₂, comma, h⟩ := mem_run_seq.mp h
  obtain ⟨c₃, back, name⟩ := mem_run_seq.mp h
  obtain ⟨gap, text₁, rfl, blanks⟩ := mem_run_star_one front
  obtain ⟨text₂, rfl⟩ := mem_run_text comma
  obtain ⟨gap', text₃, rfl, blanks'⟩ := mem_run_star_one back
  obtain ⟨u, some_char, text₄, rfl, parts⟩ := mem_run_plus name
  obtain ⟨x, u, rfl⟩ := List.exists_cons_of_ne_nil some_char
  rw [text₂, text₃, text₄] at text₁
  exact ⟨gap, gap', x, _, blanks, blanks', parts x List.mem_cons_self, text₁⟩

/-- What is taken in is the front of the list. -/
theorem exists_further_append (item : Item) (items : List Item) :
    ∃ left, item.behind ++ spell items = further (item :: items) ++ left := by
  induction items generalizing item with
  | nil => exact ⟨_, rfl⟩
  | cons next items ih =>
      rw [further]
      by_cases all : item.behind.all isListChar = true
      · obtain ⟨left, split⟩ := ih next
        refine ⟨left, ?_⟩
        rw [if_pos all, spell_cons, split]
        simp
      · exact ⟨_, by rw [if_neg all]; rfl⟩

theorem match?_furtherModule {gap' name : List Char} (blanks : IsBlanks gap)
    (blanks' : IsBlanks gap') (named : IsModule name) (ends : EndsWord more)
    (text : c.rest = (gap ++ ',' :: gap') ++ (name ++ more)) :
    furtherModule.match? c = some (c.past ((gap ++ ',' :: gap') ++ name)) := by
  have text₁ : c.rest = gap ++ (",".toList ++ (gap' ++ (name ++ more))) := by simpa using text
  have text₂ : (c.past gap).rest = ",".toList ++ (gap' ++ (name ++ more)) := Cursor.rest_past text₁
  have text₃ : ((c.past gap).past ",".toList).rest = gap' ++ (name ++ more) :=
    Cursor.rest_past text₂
  have text₄ : (((c.past gap).past ",".toList).past gap').rest = name ++ more :=
    Cursor.rest_past text₃
  obtain ⟨x, rest, rfl, part⟩ := named.isWritten.first
  have plain : ∀ y ∈ (x :: rest ++ more).head?, Text.isBlank y = false := by
    rintro _ ⟨⟩
    exact isBlank_of_isWordChar part
  have comma : ∀ y ∈ (",".toList ++ (gap' ++ (x :: rest ++ more))).head?,
      Text.isBlank y = false := by
    rintro _ ⟨⟩
    decide
  have round := match?_seq (match?_star_one text₁ blanks comma) (match?_seq (match?_text text₂)
    (match?_seq (match?_star_one text₃ blanks' plain)
      (match?_plus text₄ (List.cons_ne_nil x rest) named.isWritten.parts ends)))
  have whole : (gap ++ ',' :: gap') ++ x :: rest = gap ++ (",".toList ++ (gap' ++ x :: rest)) := by
    simp
  rw [Cursor.past_past, Cursor.past_past, Cursor.past_past] at round
  rw [whole]
  exact round

/-- From behind a module a list is taken in as far as it goes. -/
theorem match?_further (h : IsList false IsModule (item :: items)) (ends : EndsStatement more)
    (text : c.rest = item.behind ++ (spell items ++ more)) :
    (star true furtherModule).match? c = some (c.past (further (item :: items))) := by
  have stops {c : Cursor} (closed : ¬Continues c.rest) :
      (star true furtherModule).match? c = some c :=
    match?_star_stop (List.eq_nil_iff_forall_not_mem.mpr fun d h => closed (continues_of_mem_run h))
  induction items generalizing item c with
  | nil =>
      cases h with
      | last _ ending =>
          rw [further, Cursor.past_nil]
          refine stops ?_
          rw [text]
          exact ending.not_continues ends.list
      | cons _ _ listed => cases listed
  | cons next items ih =>
      cases h with
      | cons _ separated listed =>
          rw [further]
          by_cases all : item.behind.all isListChar = true
          · obtain ⟨gap, gap', behind, blanks, blanks'⟩ := separated.exists_of_isListChar all
            have split : c.rest = item.behind ++ (next.name ++
                (next.behind ++ (spell items ++ more))) := by
              rw [text, spell_cons]
              simp
            have named : IsModule next.name := by
              cases listed <;> assumption
            have round := match?_furtherModule blanks blanks' named (listed.endsWord ends.word)
              (behind ▸ split)
            rw [← behind] at round
            have longer : c.offset < (c.past (item.behind ++ next.name)).offset := by
              rw [Cursor.offset_past, behind]
              simp only [List.length_append, List.length_cons]
              omega
            have next_rest : (c.past (item.behind ++ next.name)).rest =
                next.behind ++ (spell items ++ more) := by
              refine Cursor.rest_past ?_
              rw [split, List.append_assoc]
            rw [if_pos all, match?_star_step round longer, ih listed next_rest, Cursor.past_past,
              List.append_assoc]
          · rw [if_neg all, Cursor.past_nil]
            refine stops ?_
            rw [text]
            exact fun continues => all (separated.all_of_continues continues)

/-! ## Statements -/

/-- A statement is matched as its part behind the word is. -/
theorem match?_statement (there : s.toList ∈ statementWords) (start : IsLineStart c)
    (blanks : IsBlanks gap) (some_gap : gap ≠ [])
    (visible : ∀ x ∈ rest.head?, Text.isBlank x = false) (text : c.rest = s.toList ++ (gap ++ rest))
    (behind : q.match? (c.past (s.toList ++ gap)) = some d) :
    (statement s q).match? c = some d := by
  have at_start : Pattern.lineStart.match? c = some c := by
    have here : Pattern.lineStart.run c = [c] := if_pos start
    rw [match?, here]
    rfl
  have plain : ∀ x ∈ (s.toList ++ (gap ++ rest)).head?, Text.isBlank x = false := by
    obtain ⟨y, word, spelled, plain⟩ := exists_cons_of_mem_statementWords there
    rw [spelled]
    rintro _ ⟨⟩
    exact plain
  have indent : lineIndent.match? c = some c := by
    have nothing := match?_star_one (u := []) text (List.forall_mem_nil _) plain
    rw [Cursor.past_nil] at nothing
    exact match?_seq at_start nothing
  have spaced : (many1 blank).match? (c.past s.toList) = some ((c.past s.toList).past gap) :=
    match?_plus (Cursor.rest_past text) some_gap blanks visible
  rw [← Cursor.past_past] at behind
  exact match?_seq indent (match?_seq (match?_text text) (match?_seq spaced behind))

/-- Where the word of a statement stands, a match goes on over the blanks behind it. -/
theorem mem_run_statement_of_word (there : s.toList ∈ statementWords)
    (text : c.rest = s.toList ++ more) (h : d ∈ (statement s q).run c) :
    ∃ gap rest, IsBlanks gap ∧ gap ≠ [] ∧ more = gap ++ rest ∧
      (c.past (s.toList ++ gap)).rest = rest ∧ d ∈ q.run (c.past (s.toList ++ gap)) := by
  obtain ⟨-, indent, gap, rest, blanks, blanks', some_gap, split, behind⟩ := mem_run_statement h
  obtain ⟨x, word, spelled, plain⟩ := exists_cons_of_mem_statementWords there
  have at_word : indent = [] := by
    cases indent with
    | nil => rfl
    | cons y indent =>
        rw [text, spelled] at split
        obtain ⟨rfl, -⟩ := List.cons.inj split
        rw [blanks x List.mem_cons_self] at plain
        cases plain
  subst at_word
  rw [List.nil_append] at split behind
  refine ⟨gap, rest, blanks', some_gap, ?_, Cursor.rest_past ?_, behind⟩
  · exact List.append_cancel_left (text.symm.trans split)
  · rw [split, List.append_assoc]

/-- The part of the pattern of imports that takes in the modules. -/
def modulesPattern : Pattern :=
  group 1 (seq (many1 (one isModuleChar)) (star true furtherModule))

theorem pythonImport_eq : pythonImport = statement "import" modulesPattern :=
  rfl

/-- An import of modules is found with the modules that are taken in. -/
theorem match?_pythonImport (start : IsLineStart c) (bare : c.captures = [])
    (blanks : IsBlanks gap) (some_gap : gap ≠ []) (h : IsList false IsModule (item :: items))
    (ends : EndsStatement more)
    (text : c.rest = "import".toList ++ (gap ++ (spell (item :: items) ++ more))) :
    pythonImport.match? c =
      some { c.past (("import".toList ++ gap) ++ (item.name ++ further (item :: items))) with
        captures := [(1, ⟨c.offset + ("import".toList ++ gap).length,
          item.name ++ further (item :: items)⟩)] } := by
  rw [spell_cons, List.append_assoc, List.append_assoc] at text
  have named : IsModule item.name := by
    cases h <;> assumption
  obtain ⟨x, name, spelled, part⟩ := named.isWritten.first
  have visible : ∀ y ∈ (item.name ++ (item.behind ++ (spell items ++ more))).head?,
      Text.isBlank y = false := by
    rw [spelled]
    rintro _ ⟨⟩
    exact isBlank_of_isWordChar part
  have some_char : item.name ≠ [] := by
    rw [spelled]
    exact List.cons_ne_nil x name
  have rest : (c.past ("import".toList ++ gap)).rest =
      item.name ++ (item.behind ++ (spell items ++ more)) := by
    refine Cursor.rest_past ?_
    rw [text, List.append_assoc]
  have first := match?_plus rest some_char named.isWritten.parts (h.endsWord ends.word)
  have list := match?_seq first (match?_further h ends (Cursor.rest_past rest))
  rw [Cursor.past_past] at list
  obtain ⟨left, split⟩ := exists_further_append item items
  have taken : (c.past ("import".toList ++ gap)).rest =
      (item.name ++ further (item :: items)) ++ (left ++ more) := by
    rw [rest, ← List.append_assoc item.behind, split]
    simp
  have matched : (statement "import" modulesPattern).match? c = some _ :=
    match?_statement (by decide) start blanks some_gap visible text (match?_group list taken)
  rw [pythonImport_eq, matched, Cursor.past_past, Cursor.captures_past, bare]
  rfl

/-- What is taken in of a list ends with a module. -/
theorem exists_append_further (h : IsList false IsModule (item :: items)) :
    ∃ front name, item.name ++ further (item :: items) = front ++ name ∧ IsModule name := by
  induction items generalizing item with
  | nil =>
      cases h with
      | last word _ => exact ⟨[], item.name, by simp [further], word⟩
      | cons _ _ listed => cases listed
  | cons next items ih =>
      cases h with
      | cons word _ listed =>
          rw [further]
          by_cases all : item.behind.all isListChar = true
          · obtain ⟨front, name, split, named⟩ := ih listed
            refine ⟨item.name ++ (item.behind ++ front), name, ?_, named⟩
            rw [if_pos all, split]
            simp
          · exact ⟨[], item.name, by simp [all], word⟩

theorem takesIn_pythonImport (start : IsLineStart c) (bare : c.captures = [])
    (blanks : IsBlanks gap) (some_gap : gap ≠ []) (h : IsList false IsModule (item :: items))
    (ends : EndsStatement (tail ++ more))
    (stands : c.rest = ((Statement.modules gap (item :: items)).text ++ tail) ++ more) :
    TakesIn pythonImport c ((Statement.modules gap (item :: items)).text ++ tail) [(1,
      ⟨c.offset + ("import".toList ++ gap).length, item.name ++ further (item :: items)⟩)] := by
  have text : c.rest = "import".toList ++ (gap ++ (spell (item :: items) ++ (tail ++ more))) := by
    rw [stands, Statement.text_modules]
    simp
  have matched := match?_pythonImport start bare blanks some_gap h ends text
  obtain ⟨left, behind⟩ := exists_further_append item items
  obtain ⟨front, name, split, named⟩ := exists_append_further h
  obtain ⟨x, rest, spelled, -⟩ := named.isWritten.first
  have some_char : name ≠ [] := spelled ▸ List.cons_ne_nil x rest
  have one_line : '\n' ∉ name := fun feed => absurd (named.isWritten.parts _ feed) (by decide)
  have line : (Statement.modules gap (item :: items)).text ++ tail =
      ("import".toList ++ gap) ++ ((item.name ++ further (item :: items)) ++ (left ++ tail)) := by
    rw [Statement.text_modules, spell_cons, behind]
    simp
  rw [split, ← List.append_assoc] at matched
  rw [split] at line
  rw [split]
  exact takesIn_of_match? some_char one_line ⟨left ++ tail, by rw [line]; simp⟩ matched

theorem begins_modulesPattern : Begins (isModuleChar · = true) modulesPattern := by
  intro c d h
  obtain ⟨e, matched, -⟩ := List.mem_map.mp h
  obtain ⟨f, name, -⟩ := mem_run_seq.mp matched
  obtain ⟨u, some_char, text, -, parts⟩ := mem_run_plus name
  obtain ⟨x, u, rfl⟩ := List.exists_cons_of_ne_nil some_char
  exact ⟨x, _, text, parts x List.mem_cons_self⟩

/-- An import of modules is overlooked if its line goes on behind its word. -/
theorem run_pythonImport_of_gap (h : IsGap false gap) (unspaced : ¬IsBlanks gap)
    (text : c.rest = "import".toList ++ (gap ++ more)) : pythonImport.run c = [] := by
  rw [List.eq_nil_iff_forall_not_mem]
  intro d matched
  obtain ⟨gap', rest, blanks, -, split, behind, listed⟩ :=
    mem_run_statement_of_word (s := "import") (q := modulesPattern) (by decide) text matched
  obtain ⟨x, rest', begun, part⟩ := begins_modulesPattern _ d listed
  have visible : Text.isBlank x = false := isBlank_of_isModuleChar part
  have backslash := (h.leader_append more).resolve_left unspaced
  rw [split, leader_append_blanks blanks, ← behind, begun, leader_cons visible] at backslash
  obtain rfl := Option.some.inj backslash
  exact absurd part (by decide)

end CommitSplit.Python
