import CommitSplit.Proofs.Imports.Python.Modules
import CommitSplit.Proofs.Imports.Python.Taken

/-!
# Imports of names

An import of names is found if blanks, and nothing else, stand between its words. Whatever a search
takes for the module and for the blanks, the words are told apart in one way only, as what is
imported from does not hold the word `import` itself.
-/

namespace CommitSplit.Python

open Source (IsBlanks)
open Specifier
open Text (Capture Cursor Pattern)
open Text.Pattern

variable {c d : Cursor} {o : Origin} {items : List Item} {more rest text gap gap' u v w : List Char}
  {x : Char}

/-- The part of the pattern behind the word `from`. -/
def originPattern : Pattern :=
  seq (group 1 modulePattern)
    (seq (many1 blank) (seq (Pattern.text "import") listPattern))

theorem pythonFrom_eq : pythonFrom = statement "from" originPattern :=
  rfl

/-! ## What is taken in -/

namespace Origin

/-- Blanks stand between the words. -/
def isSpaced (o : Origin) : Bool :=
  (!o.behindFrom.isEmpty && o.behindFrom.all Text.isBlank) && !o.behindModule.isEmpty

/-- Whether a search finds an import of names. -/
def isSeen (o : Origin) : Bool :=
  o.isSpaced && o.isHeard

theorem IsLegal.first_module (h : o.IsLegal) : ∃ x rest, o.module = x :: rest ∧
    isModuleChar x = true := by
  rw [module]
  cases dots : o.dots with
  | succ n => exact ⟨'.', List.replicate n '.' ++ o.dotted, rfl, by decide⟩
  | zero =>
      obtain ⟨x, rest, spelled, part⟩ :=
        (h.dotted.resolve_left (h.some_module dots)).isWritten.first
      exact ⟨x, rest, spelled, by simp [isModuleChar, part]⟩

theorem IsLegal.parts_module (h : o.IsLegal) : ∀ x ∈ o.module, isModuleChar x = true := by
  refine List.forall_mem_append.mpr ⟨fun x there => ?_, fun x there => ?_⟩
  · rw [List.eq_of_mem_replicate there]
    rfl
  · rcases h.dotted with nothing | named
    · simp [nothing] at there
    · exact named.isWritten.parts x there

theorem IsLegal.match?_module (h : o.IsLegal) (ends : EndsWord more)
    (text : c.rest = o.module ++ more) : modulePattern.match? c = some (c.past o.module) := by
  have apart : ∀ x ∈ (o.dotted ++ more).head?, decide (x = '.') = false := by
    intro x first
    refine decide_eq_false ?_
    rintro rfl
    rcases h.dotted with nothing | named
    · rw [nothing] at first
      exact absurd (ends _ first) (by decide)
    · obtain ⟨y, rest, spelled, part⟩ := named.isWritten.first
      rw [spelled] at first
      obtain rfl := Option.some.inj first
      exact absurd part (by decide)
  have parts : ∀ x ∈ o.dotted, isModuleChar x = true :=
    fun x there => h.parts_module x (List.mem_append_right _ there)
  rw [module, List.append_assoc] at text
  have dots : (many (Pattern.text ".")).match? c = some (c.past (List.replicate o.dots '.')) := by
    rw [many_dot_eq]
    exact match?_star_one text (by simp) apart
  rw [module, ← Cursor.past_past]
  exact match?_seq dots (match?_star_one (Cursor.rest_past text) parts ends)

end Origin

/-- Behind the module the pattern goes over the blanks and the word of imports. -/
theorem match?_behindModule (blanks : IsBlanks gap) (some_gap : gap ≠ [])
    (text : c.rest = gap ++ ("import".toList ++ rest))
    (behind : listPattern.match? (c.past (gap ++ "import".toList)) = some d) :
    (seq (many1 blank) (seq (Pattern.text "import") listPattern)).match? c = some d := by
  have visible : ∀ x ∈ ("import".toList ++ rest).head?, Text.isBlank x = false := by
    rintro _ ⟨⟩
    decide
  have word := match?_text (Cursor.rest_past text)
  rw [← Cursor.past_past] at behind
  exact match?_seq (match?_plus text some_gap blanks visible) (match?_seq word behind)

/-- An import of names is matched as the part behind its words is. -/
theorem Origin.IsLegal.match?_pythonFrom (h : o.IsLegal) (spaced : o.isSpaced = true)
    (start : IsLineStart c) (text : c.rest = o.front ++ rest)
    (behind : listPattern.match? { c.past o.front with
      captures := (1, ⟨c.offset + ("from".toList ++ o.behindFrom).length, o.module⟩) ::
        c.captures } = some d) :
    pythonFrom.match? c = some d := by
  obtain ⟨⟨some_front, blanks⟩, some_back⟩ : (o.behindFrom ≠ [] ∧ IsBlanks o.behindFrom) ∧
      o.behindModule ≠ [] := by
    simpa [isSpaced, Source.IsBlanks] using spaced
  have split : c.rest = "from".toList ++ (o.behindFrom ++ (o.module ++ (o.behindModule ++
      ("import".toList ++ rest)))) := by
    rw [text, front_eq]
    simp
  have plain : ∀ x ∈ (o.module ++ (o.behindModule ++ ("import".toList ++ rest))).head?,
      Text.isBlank x = false := by
    obtain ⟨x, rest, spelled, part⟩ := h.first_module
    rw [spelled]
    rintro _ ⟨⟩
    exact isBlank_of_isModuleChar part
  have at_module : (c.past ("from".toList ++ o.behindFrom)).rest = o.module ++ (o.behindModule ++
      ("import".toList ++ rest)) := by
    refine Cursor.rest_past ?_
    rw [split, List.append_assoc]
  have ends := endsWord_blank h.behindModule.isBlanks some_back ("import".toList ++ rest)
  have captured := h.match?_module ends at_module
  have whole : o.front = ("from".toList ++ o.behindFrom) ++ (o.module ++
      (o.behindModule ++ "import".toList)) := by
    rw [front_eq]
    simp
  rw [whole, ← Cursor.past_past, ← Cursor.past_past _ o.module] at behind
  exact match?_statement (by decide) start blanks some_front plain split
    (match?_seq (match?_group captured at_module)
      (match?_behindModule h.behindModule.isBlanks some_back (Cursor.rest_past at_module) behind))

/-! ## Every match -/

/-- A search for imports could begin where their word stands between blanks. -/
theorem opens_import (blanks : IsBlanks gap) (blanks' : IsBlanks gap') (some_gap : gap' ≠ [])
    (rest : List Char) : Opens "import".toList (gap ++ ("import".toList ++ (gap' ++ rest))) := by
  obtain ⟨b, gap', rfl⟩ := List.exists_cons_of_ne_nil some_gap
  exact ⟨gap, b, gap' ++ rest, blanks, blanks' b List.mem_cons_self, rfl⟩

/-- The gap behind the first word is blank: a backslash could not be matched. -/
theorem Origin.IsLegal.isBlanks_behindFrom (h : o.IsLegal) (blanks : IsBlanks gap)
    (parts : ∀ x ∈ u, isModuleChar x = true) (blanks' : IsBlanks gap')
    (same : o.behindFrom ++ more = gap ++ (u ++ (gap' ++ ("import".toList ++ rest)))) :
    IsBlanks o.behindFrom := by
  refine (h.behindFrom.leader_append more).resolve_right fun backslash => ?_
  rw [same, leader_append_blanks blanks] at backslash
  cases u with
  | nil =>
      have word_first : leader ("import".toList ++ rest) = some 'i' := leader_cons (by decide) _
      rw [List.nil_append, leader_append_blanks blanks', word_first] at backslash
      exact absurd backslash (by decide)
  | cons y u =>
      have part := parts y List.mem_cons_self
      rw [List.cons_append, leader_cons (isBlank_of_isModuleChar part)] at backslash
      obtain rfl := Option.some.inj backslash
      exact absurd part (by decide)

/-- The word of imports between blanks does not stand in the place of the module. -/
theorem Origin.IsLegal.module_ne_word (h : o.IsLegal) (front : IsBlanks o.behindFrom)
    (blanks : IsBlanks gap) (blanks' : IsBlanks v) (some_gap : v ≠ []) :
    o.behindFrom ++ (o.module ++ (o.behindModule ++ more)) ≠
      gap ++ ("import".toList ++ (v ++ rest)) := by
  intro same
  obtain ⟨x, m, spelled, part⟩ := h.first_module
  rw [spelled] at same
  have split : o.behindFrom ++ x :: (m ++ (o.behindModule ++ more)) =
      gap ++ 'i' :: ("mport".toList ++ (v ++ rest)) :=
    same
  obtain ⟨-, rfl, behind⟩ := eq_of_isBlanks_append front blanks (isBlank_of_isModuleChar part)
    (by decide) split
  refine h.isClosed_module more "import".toList (by decide) ?_
  rw [spelled, List.cons_append, behind]
  have nothing : IsBlanks [] := nofun
  exact opens_import nothing blanks' some_gap rest

/-- A match ends the module where it ends. -/
theorem Origin.IsLegal.behindModule_unique (h : o.IsLegal) (closed : IsClosed more)
    (ends : EndsWord more) (parts : ∀ x ∈ u, isModuleChar x = true) (blanks : IsBlanks gap)
    (some_gap : gap ≠ []) (blanks' : IsBlanks v) (some_gap' : v ≠ [])
    (same : o.module ++ (o.behindModule ++ ("import".toList ++ more)) =
      u ++ (gap ++ ("import".toList ++ (v ++ rest)))) :
    o.behindModule = gap ∧ more = v ++ rest := by
  have behind_parts := (Source.span_append parts (endsWord_blank blanks some_gap
    ("import".toList ++ (v ++ rest)))).2
  rw [← same] at behind_parts
  rcases eq_or_ne o.behindModule [] with nothing | some_back
  · -- Dots in front of the word would have taken it in, and another one would follow.
    exfalso
    have all : ∀ y ∈ o.module ++ "import".toList, isModuleChar y = true :=
      List.forall_mem_append.mpr ⟨h.parts_module, List.all_iff_forall_prop.mp (by decide)⟩
    rw [nothing, List.nil_append, ← List.append_assoc, (Source.span_append all ends).2]
      at behind_parts
    refine closed "import".toList (by decide) ?_
    rw [behind_parts]
    exact opens_import blanks blanks' some_gap' rest
  · rw [(Source.span_append h.parts_module (endsWord_blank h.behindModule.isBlanks some_back
      ("import".toList ++ more))).2] at behind_parts
    have words : o.behindModule ++ 'i' :: ("mport".toList ++ more) =
        gap ++ 'i' :: ("mport".toList ++ (v ++ rest)) := behind_parts
    obtain ⟨same_gap, -, rest_eq⟩ := eq_of_isBlanks_append h.behindModule.isBlanks blanks
      (by decide) (by decide) words
    exact ⟨same_gap, List.append_cancel_left rest_eq⟩

/-- The words of a statement can be told from what follows them, whatever a match takes for its
blanks and its module. -/
theorem Origin.IsLegal.front_unique (h : o.IsLegal) (closed : IsClosed more) (ends : EndsWord more)
    (blanks : IsBlanks gap) (parts : ∀ x ∈ u, isModuleChar x = true) (blanks' : IsBlanks gap')
    (some_gap' : gap' ≠ []) (blanks'' : IsBlanks v) (some_gap'' : v ≠ [])
    (same : o.behindFrom ++ (o.module ++ (o.behindModule ++ ("import".toList ++ more))) =
      gap ++ (u ++ (gap' ++ ("import".toList ++ (v ++ rest))))) :
    o.behindFrom = gap ∧ o.behindModule = gap' ∧ more = v ++ rest := by
  have front := h.isBlanks_behindFrom blanks parts blanks' same
  cases u with
  | nil =>
      rw [List.nil_append, ← List.append_assoc gap] at same
      exact absurd same (h.module_ne_word front (List.forall_mem_append.mpr ⟨blanks, blanks'⟩)
        blanks'' some_gap'')
  | cons y u =>
      obtain ⟨x, m, spelled, part⟩ := h.first_module
      have split : o.behindFrom ++ x :: (m ++ (o.behindModule ++ ("import".toList ++ more))) =
          gap ++ y :: (u ++ (gap' ++ ("import".toList ++ (v ++ rest)))) := by
        rw [← List.cons_append, ← spelled, same, List.cons_append]
      obtain ⟨same_gap, rfl, behind⟩ := eq_of_isBlanks_append front blanks
        (isBlank_of_isModuleChar part) (isBlank_of_isModuleChar (parts y List.mem_cons_self)) split
      refine ⟨same_gap, h.behindModule_unique closed ends parts blanks' some_gap' blanks''
        some_gap'' ?_⟩
      rw [spelled, List.cons_append, behind, List.cons_append]

/-! ## What is found -/

namespace Origin

theorem Imports.endsWord (imports : o.Imports items) (spaced : IsGap false o.behindImport)
    (more : List Char) : EndsWord (o.behindImport ++ (o.body items ++ more)) := by
  cases imports with
  | names _ apart _ => exact spaced.endsWord_of_ne_nil apart _
  | all opening | enclosed opening _ _ =>
      rw [body, opening]
      exact spaced.endsWord (endsWord_cons (by decide))

/-- An import of names that is found gives the module and the names that are read. -/
theorem IsLegal.takesIn_pythonFrom (h : o.IsLegal) (imports : o.Imports items)
    (seen : o.isSeen = true) (start : IsLineStart c) (bare : c.captures = [])
    (blanks : IsBlanks (tail.takeWhile isNamesChar))
    (ends : ∀ x ∈ more.head?, isNamesChar x = false)
    (stands : c.rest = ((Statement.names o items).text ++ tail) ++ more) :
    ∃ offset names, importedNames names = o.heard items ∧
      TakesIn pythonFrom c ((Statement.names o items).text ++ tail) [(2, ⟨offset, names⟩),
        (1, ⟨c.offset + ("from".toList ++ o.behindFrom).length, o.module⟩)] := by
  obtain ⟨spaced, heard⟩ := Bool.and_eq_true_iff.mp seen
  have text : (Statement.names o items).text ++ tail =
      o.front ++ (o.behindImport ++ (o.body items ++ tail)) := by
    rw [Statement.text_names]
    simp
  rw [text, List.append_assoc] at stands
  rw [text]
  obtain ⟨offset, names, read, w, x, left, split, other, matched⟩ := imports.takesIn_list
    (c := { c.past o.front with captures :=
      (1, ⟨c.offset + ("from".toList ++ o.behindFrom).length, o.module⟩) :: c.captures })
    h.behindImport heard blanks ends (Cursor.rest_past stands)
  refine ⟨offset, names, read, o.front ++ w, x, left, by rw [split]; simp, other, ?_⟩
  have reached := Cursor.past_past c o.front (w ++ [x])
  rw [← List.append_assoc] at reached
  rw [← reached, ← bare]
  exact h.match?_pythonFrom spaced start stands matched

/-- Otherwise nothing is found. -/
theorem IsLegal.run_pythonFrom_eq_nil (h : o.IsLegal) (imports : o.Imports items)
    (unseen : o.isSeen = false) (ends : EndsWord more)
    (stands : c.rest = (Statement.names o items).text ++ more) : pythonFrom.run c = [] := by
  have text : c.rest = "from".toList ++ (o.behindFrom ++ (o.module ++ (o.behindModule ++
      ("import".toList ++ (o.behindImport ++ (o.body items ++ more)))))) := by
    rw [stands, Statement.text_names, front_eq]
    simp
  rw [List.eq_nil_iff_forall_not_mem]
  intro d matched
  obtain ⟨gap, rest, blanks, some_gap, split, at_module, matched⟩ :=
    mem_run_statement_of_word (s := "from") (q := originPattern) (by decide) text matched
  obtain ⟨c₁, captured, matched⟩ := mem_run_seq.mp matched
  obtain ⟨c₂, spaced, matched⟩ := mem_run_seq.mp matched
  obtain ⟨c₃, word, listed⟩ := mem_run_seq.mp matched
  obtain ⟨u, text₁, module, rfl⟩ := mem_run_group rfl captured
  obtain ⟨gap', some_gap', text₂, rfl, blanks'⟩ := mem_run_plus spaced
  obtain ⟨text₃, rfl⟩ := mem_run_text word
  obtain ⟨v, opening, gap'', names, offset, some_gap'', blanks'', -, -, -, -, text₄, -⟩ :=
    mem_run_list listed
  have closed := (h.behindImport.quiet (imports.quiet_body ends).2).2
  have parts := parts_of_mem_run module text₁
  rw [at_module, text₂, text₃, text₄] at text₁
  obtain ⟨same_gap, same_gap', rest_eq⟩ := h.front_unique closed
    (imports.endsWord h.behindImport more) blanks parts blanks' some_gap'
    blanks'' some_gap'' (split.trans (congrArg _ text₁))
  have spaced : o.isSpaced = true := by
    rw [isSpaced, same_gap, same_gap', List.all_eq_true.mpr blanks]
    simp [some_gap, some_gap']
  have unheard : o.isHeard = false := by
    simpa [isSeen, spaced] using unseen
  rw [← rest_eq, ← List.append_assoc] at text₄
  rw [imports.run_list_eq_nil h.behindImport unheard text₄] at listed
  cases listed

end Origin

end CommitSplit.Python
