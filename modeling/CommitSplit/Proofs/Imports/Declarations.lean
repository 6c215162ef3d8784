import CommitSplit.Proofs.Imports.Lines
import CommitSplit.Surface.Source.Span

/-!
# Searching declarations of modules

In a spaced layout a module of Rust is declared on a line of its own, with nothing in front of it
but its visibility. The pattern of such declarations matches in one way only there, and captures the
name of the module.
-/

namespace CommitSplit.Rust

open Source (IsBlanks IsComment IsLineRest)

/-- A name that both patterns and tokens take for a word. -/
structure IsWord (cs : List Char) : Prop where
  begins : ∃ c rest, cs = c :: rest ∧ c.isDigit = false
  parts : ∀ c ∈ cs, Source.isWordPart c = true ∧ Text.isWordChar c = true

theorem isWord_iff {cs : List Char} : IsWord cs ↔ (cs.head?.any fun c => !c.isDigit) = true ∧
    (cs.all fun c => Source.isWordPart c && Text.isWordChar c) = true := by
  simp only [Source.head?_any_iff, List.all_eq_true, Bool.and_eq_true, Bool.not_eq_true']
  exact ⟨fun h => ⟨h.begins, h.parts⟩, fun h => ⟨h.1, h.2⟩⟩

instance : DecidablePred IsWord :=
  fun _ => decidable_of_iff _ isWord_iff.symm

/-- What may stand in front of the word `mod`, with some text between parentheses. -/
inductive Visibility (inner : List Char → Prop) : List Char → Prop
  | hidden : Visibility inner []
  | everywhere {gap : List Char} : IsBlanks gap → gap ≠ [] →
      Visibility inner ("pub".toList ++ gap)
  | within {cs gap : List Char} : inner cs → IsBlanks gap → gap ≠ [] →
      Visibility inner ("pub".toList ++ ('(' :: (cs ++ ')' :: gap)))

/-- Declarations of modules in other files, with their names. -/
inductive Header : List (List Char) → List Char → Prop
  | nil : Header [] []
  | comment {names : List (List Char)} {gap cs text : List Char} : IsBlanks gap → IsComment cs →
      Header names text → Header names (gap ++ (cs ++ text))
  | declaration {names : List (List Char)} {gap visibility gap₁ name gap₂ behind text : List Char} :
      IsBlanks gap → Visibility IsWord visibility → IsBlanks gap₁ → gap₁ ≠ [] → IsWord name →
      IsBlanks gap₂ → IsLineRest behind → Header names text →
      Header (name :: names) (gap ++ (visibility ++
        ("mod".toList ++ (gap₁ ++ (name ++ (gap₂ ++ ';' :: (behind ++ text)))))))

theorem Header.ne_nil {names : List (List Char)} {text : List Char} (h : Header names text) :
    ∀ name ∈ names, name ≠ [] := by
  induction h with
  | nil => nofun
  | comment _ _ _ ih => exact ih
  | declaration _ _ _ _ word _ _ _ ih =>
      obtain ⟨c, rest, rfl, -⟩ := word.begins
      exact List.forall_mem_cons.mpr ⟨List.cons_ne_nil c rest, ih⟩

theorem Visibility.mono {inner inner' : List Char → Prop} {cs : List Char} (h : Visibility inner cs)
    (weaker : ∀ cs, inner cs → inner' cs) : Visibility inner' cs := by
  cases h with
  | hidden => exact .hidden
  | everywhere blanks some_blank => exact .everywhere blanks some_blank
  | within there blanks some_blank => exact .within (weaker _ there) blanks some_blank

/-- In front of the word `mod` the visibility can be told from what follows. -/
theorem Visibility.eq_of_append {u u' v v' : List Char} (h : Visibility (')' ∉ ·) u)
    (h' : Visibility (')' ∉ ·) u') (same : u ++ 'm' :: v = u' ++ 'm' :: v') : u = u' := by
  have unlike {gap v w : List Char} {x : Char} (blanks : IsBlanks gap) (some_blank : gap ≠ [])
      (plain : Text.isBlank x = false) (same : gap ++ v = x :: w) : False := by
    obtain ⟨b, gap, rfl⟩ := List.exists_cons_of_ne_nil some_blank
    obtain ⟨rfl, -⟩ := List.cons.inj same
    rw [blanks b List.mem_cons_self] at plain
    cases plain
  have blank_end {gap gap' v v' : List Char} (blanks : IsBlanks gap) (blanks' : IsBlanks gap')
      (same : gap ++ 'm' :: v = gap' ++ 'm' :: v') : gap = gap' :=
    (Specifier.eq_of_isBlanks_append blanks blanks' (by decide) (by decide) same).1
  cases h with
  | hidden =>
      cases h' with
      | hidden => rfl
      | everywhere _ _ | within _ _ _ => exact absurd (List.cons.inj same).1 (by decide)
  | everywhere blanks some_blank =>
      cases h' with
      | hidden => exact absurd (List.cons.inj same).1 (by decide)
      | everywhere blanks' _ =>
          rw [List.append_assoc, List.append_assoc, List.append_cancel_left_eq] at same
          rw [blank_end blanks blanks' same]
      | within _ _ _ =>
          rw [List.append_assoc, List.append_assoc, List.append_cancel_left_eq] at same
          exact (unlike blanks some_blank (by decide) same).elim
  | @within cs gap inner blanks some_blank =>
      cases h' with
      | hidden => exact absurd (List.cons.inj same).1 (by decide)
      | everywhere blanks' some_blank' =>
          rw [List.append_assoc, List.append_assoc, List.append_cancel_left_eq] at same
          exact (unlike blanks' some_blank' (by decide) same.symm).elim
      | @within cs' gap' inner' blanks' _ =>
          rw [List.append_assoc, List.append_assoc, List.append_cancel_left_eq] at same
          have inner_same : cs ++ ')' :: (gap ++ 'm' :: v) = cs' ++ ')' :: (gap' ++ 'm' :: v') := by
            simpa using same
          obtain ⟨rfl, -, behind⟩ := Text.eq_of_append_cons_eq (· = ')')
            (fun x there here => inner (here ▸ there)) (fun x there here => inner' (here ▸ there))
            rfl rfl inner_same
          rw [blank_end blanks blanks' behind]

end CommitSplit.Rust

namespace CommitSplit.Specifier

open Source (IsBlanks IsComment IsLineRest)
open Rust (Header IsWord Visibility)
open Text (Capture Cursor Pattern)
open Text.Pattern

variable {c d : Cursor} {p q : Pattern} {u w name more gap gap₁ gap₂ visibility cs : List Char}
  {x : Char}

/-! ## Where a match goes -/

/-- No blank is a word character. -/
theorem isWordChar_of_isBlank (blank : Text.isBlank x = true) : Text.isWordChar x = false := by
  have all : ∀ range ∈ Text.blankRanges, ∀ k < range.2 + 1 - range.1,
      Text.isWordChar (Char.ofNat (range.1 + k)) = false := by decide +kernel
  obtain ⟨range, there, bounds⟩ := List.any_eq_true.mp blank
  obtain ⟨low, high⟩ := Bool.and_eq_true_iff.mp bounds
  have here := all range there (x.toNat - range.1) (by simp at low high; omega)
  rwa [Nat.add_sub_cancel' (by simpa using low), Char.ofNat_toNat] at here

/-- A pattern that goes over blanks only. -/
def SkipsBlanks (p : Pattern) : Prop :=
  ∀ c d, d ∈ p.run c → ∃ u, IsBlanks u ∧ c.rest = u ++ d.rest ∧ d = c.past u

theorem skipsBlanks_lineIndent : SkipsBlanks lineIndent :=
  fun _ _ h => (mem_run_lineIndent h).2

theorem skipsBlanks_many : SkipsBlanks (many blank) := by
  intro c d h
  obtain ⟨u, text, behind, blanks⟩ := mem_run_star_one h
  exact ⟨u, blanks, text, behind⟩

theorem skipsBlanks_many1 : SkipsBlanks (many1 blank) := by
  intro c d h
  obtain ⟨u, -, text, behind, blanks⟩ := mem_run_plus h
  exact ⟨u, blanks, text, behind⟩

/-- It goes over all of them if the next part begins with something else. -/
theorem SkipsBlanks.mem_run (h : SkipsBlanks p) (begins : Begins (Text.isBlank · = false) q)
    (there : d ∈ (seq p q).run c) (text : c.rest = gap ++ x :: more) (blanks : IsBlanks gap)
    (plain : Text.isBlank x = false) : d ∈ q.run (c.past gap) := by
  obtain ⟨e, front, back⟩ := mem_run_seq.mp there
  obtain ⟨u, blanks', text', rfl⟩ := h c e front
  obtain ⟨y, rest, begun, plain'⟩ := begins _ d back
  rw [begun, text] at text'
  obtain ⟨rfl, -, -⟩ := eq_of_isBlanks_append blanks blanks' plain plain' text'
  exact back

/-- A word in front of blanks and a semicolon can be told from them. -/
theorem eq_of_word_append {v v' : List Char} (word : ∀ x ∈ u, Text.isWordChar x = true)
    (word' : ∀ x ∈ name, Text.isWordChar x = true) (blanks : IsBlanks w) (blanks' : IsBlanks gap)
    (same : u ++ (w ++ ';' :: v) = name ++ (gap ++ ';' :: v')) : u = name ∧ w = gap ∧ v = v' := by
  have ends {gap v : List Char} (blanks : IsBlanks gap) :
      ∃ y behind, gap ++ ';' :: v = y :: behind ∧ Text.isWordChar y = false := by
    cases gap with
    | nil => exact ⟨_, v, rfl, by decide⟩
    | cons y gap => exact ⟨y, _, rfl, isWordChar_of_isBlank (blanks y List.mem_cons_self)⟩
  obtain ⟨y, behind, front, other⟩ := ends (v := v) blanks
  obtain ⟨y', behind', front', other'⟩ := ends (v := v') blanks'
  rw [front, front'] at same
  obtain ⟨rfl, rfl, rfl⟩ := Text.eq_of_append_cons_eq
    (fun y => Text.isWordChar y = false) (fun y there => by simp [word y there])
    (fun y there => by simp [word' y there]) other other' same
  obtain ⟨rfl, -, rfl⟩ := eq_of_isBlanks_append blanks blanks' (by decide) (by decide)
    (front.trans front'.symm)
  exact ⟨rfl, rfl, rfl⟩

/-- The name of the module is all of the word in front of the semicolon. -/
theorem mem_run_moduleName (h : d ∈ (seq (group 1 (many1 (wordOr "")))
      (seq (many blank) (Pattern.text ";"))).run c)
    (text : c.rest = name ++ (gap ++ ';' :: more)) (word : ∀ x ∈ name, Text.isWordChar x = true)
    (blanks : IsBlanks gap) :
    d = { c.past (name ++ (gap ++ [';'])) with
      captures := (1, ⟨c.offset, name⟩) :: c.captures } := by
  obtain ⟨g, grouped, back⟩ := mem_run_seq.mp h
  obtain ⟨e, matched, rfl⟩ := List.mem_map.mp grouped
  obtain ⟨f, skipped, last⟩ := mem_run_seq.mp back
  obtain ⟨u, -, text₁, rfl, accepted⟩ := mem_run_plus matched
  obtain ⟨v, blanks', text₂, rfl⟩ := skipsBlanks_many _ f skipped
  obtain ⟨text₃, rfl⟩ := mem_run_text last
  have word' : ∀ x ∈ u, Text.isWordChar x = true := by simpa using accepted
  generalize Cursor.rest (Cursor.past _ ";".toList) = rest at text₃
  have parts : c.rest = u ++ (v ++ ';' :: rest) := by
    rw [text₁]
    exact congrArg _ (text₂.trans (congrArg _ text₃))
  obtain ⟨rfl, rfl, rfl⟩ := eq_of_word_append word' word blanks' blanks (parts.symm.trans text)
  have taken : c.rest.take ((c.past u).offset - c.offset) = u := by
    rw [text, Cursor.offset_past, Nat.add_sub_cancel_left, List.take_left]
  rw [← Cursor.past_past, ← Cursor.past_past, taken]
  rfl

/-! ## Visibilities -/

/-- A visibility restricted to what is named in parentheses. -/
def restriction : Pattern :=
  sequence [Pattern.text "(", many (noneOf ")"), Pattern.text ")"]

def openness : Pattern :=
  sequence [Pattern.text "pub", optional restriction, many1 blank]

theorem rustChild_eq : rustChild = seq lineIndent (seq (optional openness)
    (seq (Pattern.text "mod") (seq (many1 blank) (seq (group 1 (many1 (wordOr "")))
      (seq (many blank) (Pattern.text ";")))))) :=
  rfl

theorem mem_run_openness (h : d ∈ (optional openness).run c) :
    ∃ u, Visibility (')' ∉ ·) u ∧ c.rest = u ++ d.rest ∧ d = c.past u := by
  rcases mem_run_alt.mp h with h | nothing
  · obtain ⟨e, keyword, h⟩ := mem_run_seq.mp h
    obtain ⟨f, restricted, skipped⟩ := mem_run_seq.mp h
    obtain ⟨text, rfl⟩ := mem_run_text keyword
    obtain ⟨gap, some_blank, text₂, rfl, blanks⟩ := mem_run_plus skipped
    rcases mem_run_alt.mp restricted with restricted | nothing
    · obtain ⟨g, opening, restricted⟩ := mem_run_seq.mp restricted
      obtain ⟨i, inside, closing⟩ := mem_run_seq.mp restricted
      obtain ⟨text₃, rfl⟩ := mem_run_text opening
      obtain ⟨cs, text₄, rfl, inner⟩ := mem_run_star_one inside
      obtain ⟨text₅, rfl⟩ := mem_run_text closing
      have outside : ')' ∉ cs := fun there => by simpa using inner _ there
      refine ⟨_, .within outside blanks some_blank, ?_, ?_⟩
      · rw [text, text₃, text₄, text₅, text₂]
        simp
      · simp only [Cursor.past_past]
        exact congrArg c.past (by simp)
    · obtain rfl := List.mem_singleton.mp nothing
      refine ⟨_, .everywhere blanks some_blank, ?_, Cursor.past_past _ _ _⟩
      rw [text, text₂, List.append_assoc]
  · obtain rfl := List.mem_singleton.mp nothing
    exact ⟨[], .hidden, rfl, (Cursor.past_nil d).symm⟩

theorem passes_openness (front : Visibility (')' ∉ ·) visibility) :
    Passes (optional openness) visibility := by
  cases front with
  | hidden => exact .skipped
  | everywhere blanks some_blank =>
      have open_to_all : Passes (seq (optional restriction) (many1 blank)) ([] ++ _) :=
        Passes.skipped.seq (passes_blank blanks some_blank)
      exact .left (.seq (.text "pub") open_to_all)
  | @within cs gap inner blanks some_blank =>
      have outside : ∀ x ∈ cs, x ∉ ")".toList := by
        rintro x there here
        obtain rfl := List.mem_singleton.mp here
        exact inner there
      have restricted : Passes restriction ("(".toList ++ (cs ++ ")".toList)) :=
        .seq (.text "(") (.seq (.star fun x there => decide_eq_true (outside x there)) (.text ")"))
      have inside := Passes.seq (Passes.left (q := empty) restricted)
        (passes_blank blanks some_blank)
      have text : '(' :: (cs ++ ')' :: gap) = "(".toList ++ (cs ++ ")".toList) ++ gap := by simp
      rw [text]
      exact .left (.seq (.text "pub") inside)

/-! ## Declarations -/

/-- What is written of a declaration up to its semicolon. -/
def declared (gap visibility gap₁ name gap₂ : List Char) : List Char :=
  gap ++ (visibility ++ ("mod".toList ++ (gap₁ ++ (name ++ (gap₂ ++ [';'])))))

theorem begins_openness (q : Pattern) : Begins (fun x => Text.isBlank x = false ∧ x ≠ '/')
    (seq (optional openness) (seq (Pattern.text "mod") q)) := by
  intro c d h
  obtain ⟨e, shown, h⟩ := mem_run_seq.mp h
  obtain ⟨f, keyword, -⟩ := mem_run_seq.mp h
  obtain ⟨text, -⟩ := mem_run_text keyword
  obtain ⟨u, front, text', rfl⟩ := mem_run_openness shown
  rw [text] at text'
  cases front with
  | hidden => exact ⟨_, _, text', by decide⟩
  | everywhere _ _ | within _ _ _ => exact ⟨_, _, text', by decide⟩

theorem beginsLines_rustChild : BeginsLines rustChild :=
  beginsLines_of_lineIndent (begins_openness _)

theorem isBlank_of_isWordChar (word : Text.isWordChar x = true) : Text.isBlank x = false := by
  by_contra blank
  rw [Bool.not_eq_false] at blank
  exact Bool.noConfusion ((isWordChar_of_isBlank blank).symm.trans word)

theorem begins_moduleName (q : Pattern) :
    Begins (Text.isBlank · = false) (seq (group 1 (many1 (wordOr ""))) q) := by
  intro c d h
  obtain ⟨g, grouped, -⟩ := mem_run_seq.mp h
  obtain ⟨e, matched, -⟩ := List.mem_map.mp grouped
  obtain ⟨u, some_char, text, -, accepted⟩ := mem_run_plus matched
  obtain ⟨x, u, rfl⟩ := List.exists_cons_of_ne_nil some_char
  refine ⟨x, _, text, isBlank_of_isWordChar ?_⟩
  simpa using accepted x List.mem_cons_self

/-- Every match at the blanks in front of a declaration ends behind its semicolon. -/
theorem mem_run_rustChild (h : d ∈ rustChild.run c)
    (text : c.rest = declared gap visibility gap₁ name gap₂ ++ more) (blanks : IsBlanks gap)
    (front : Visibility (')' ∉ ·) visibility) (blanks₁ : IsBlanks gap₁) (word : Rust.IsWord name)
    (blanks₂ : IsBlanks gap₂) :
    ∃ offset, d = { c.past (declared gap visibility gap₁ name gap₂) with
      captures := (1, ⟨offset, name⟩) :: c.captures } := by
  have text₀ : c.rest = gap ++ (visibility ++ ("mod".toList ++ (gap₁ ++ (name ++
      (gap₂ ++ ';' :: more))))) := by simpa [declared] using text
  have at_front : d ∈ (seq (optional openness) (seq (Pattern.text "mod") (seq (many1 blank)
      (seq (group 1 (many1 (wordOr ""))) (seq (many blank) (Pattern.text ";")))))).run
        (c.past gap) := by
    obtain ⟨x, rest, ahead, plain⟩ : ∃ x rest, visibility ++ ("mod".toList ++ (gap₁ ++ (name ++
        (gap₂ ++ ';' :: more)))) = x :: rest ∧ Text.isBlank x = false := by
      cases front with
      | hidden => exact ⟨_, _, rfl, by decide⟩
      | everywhere _ _ | within _ _ _ => exact ⟨_, _, rfl, by decide⟩
    have begins := begins_openness (seq (many1 blank)
      (seq (group 1 (many1 (wordOr ""))) (seq (many blank) (Pattern.text ";"))))
    rw [rustChild_eq] at h
    refine skipsBlanks_lineIndent.mem_run (fun c d h => ?_) h (ahead ▸ text₀) blanks plain
    obtain ⟨x, rest, text, plain, -⟩ := begins c d h
    exact ⟨x, rest, text, plain⟩
  have text₁ := Cursor.rest_past text₀
  obtain ⟨e, shown, h⟩ := mem_run_seq.mp at_front
  obtain ⟨f, keyword, h⟩ := mem_run_seq.mp h
  obtain ⟨u, front', text', rfl⟩ := mem_run_openness shown
  obtain ⟨text'', rfl⟩ := mem_run_text keyword
  obtain rfl : u = visibility := by
    rw [text'', text₁] at text'
    exact (front.eq_of_append front' text').symm
  have text₂ := Cursor.rest_past text₁
  have text₃ := Cursor.rest_past text₂
  obtain ⟨x, letters, spelled, -⟩ := word.begins
  have letter : Text.isWordChar x = true := (word.parts x (spelled ▸ List.mem_cons_self)).2
  have at_name := skipsBlanks_many1.mem_run (begins_moduleName _) h
    (text₃.trans (by rw [spelled, List.cons_append])) blanks₁ (isBlank_of_isWordChar letter)
  have ends := mem_run_moduleName at_name (Cursor.rest_past text₃)
    (fun x there => (word.parts x there).2) blanks₂
  refine ⟨((((c.past gap).past u).past "mod".toList).past gap₁).offset, ends.trans ?_⟩
  simp only [Cursor.past_past, declared, List.append_assoc, Cursor.captures_past]

/-- A declaration is met at the start of a line. -/
theorem run_rustChild_ne_nil (start : c.before = none ∨ c.before = some '\n')
    (text : c.rest = declared gap visibility gap₁ name gap₂ ++ more) (blanks : IsBlanks gap)
    (front : Visibility (')' ∉ ·) visibility) (blanks₁ : IsBlanks gap₁) (some₁ : gap₁ ≠ [])
    (word : Rust.IsWord name) (blanks₂ : IsBlanks gap₂) : rustChild.run c ≠ [] := by
  obtain ⟨x, letters, rfl, -⟩ := word.begins
  have named : Passes (many1 (wordOr "")) (x :: letters) :=
    .plus fun y there => by simp [(word.parts y there).2]
  have at_name : Meets (seq (group 1 (many1 (wordOr ""))) (seq (many blank) (Pattern.text ";")))
      (x :: letters ++ (gap₂ ++ ';' :: more)) := by
    intro c text
    have ends : Passes (seq (many blank) (Pattern.text ";")) (gap₂ ++ ";".toList) :=
      .seq (.star blanks₂) (.text ";")
    refine List.ne_nil_of_mem (mem_run_seq.mpr ⟨_, List.mem_map.mpr ⟨_, named c _ text, rfl⟩,
      ends _ more ?_⟩)
    simpa using Cursor.rest_past text
  have whole := (passes_openness front).meets ((Passes.text "mod").meets
    ((passes_blank blanks₁ some₁).meets at_name))
  rw [rustChild_eq]
  refine run_lineIndent_ne_nil start blanks whole ?_
  simpa [declared] using text

/-! ## Headers -/

/-- A search that comes to a declaration finds the name of the module and goes on behind it. -/
theorem found_of_declaration (bare : c.captures = [])
    (start : c.before = none ∨ c.before = some '\n')
    (text : c.rest = declared gap visibility gap₁ name gap₂ ++ more) (blanks : IsBlanks gap)
    (front : Visibility (')' ∉ ·) visibility) (blanks₁ : IsBlanks gap₁) (some₁ : gap₁ ≠ [])
    (word : Rust.IsWord name) (blanks₂ : IsBlanks gap₂) :
    Finds rustChild c name ∧
      rustChild.found (c.past (declared gap visibility gap₁ name gap₂)) ⊆ rustChild.found c := by
  obtain ⟨d, ds, all⟩ := List.exists_cons_of_ne_nil
    (run_rustChild_ne_nil start text blanks front blanks₁ some₁ word blanks₂)
  obtain ⟨offset, rfl⟩ := mem_run_rustChild (all ▸ List.mem_cons_self) text blanks front blanks₁
    word blanks₂
  have some_text : 0 < (declared gap visibility gap₁ name gap₂).length := by
    simp only [declared, List.length_append, List.length_singleton]
    omega
  have found := found_of_match? (by rw [match?, all, List.head?_cons])
    (Nat.lt_add_of_pos_right some_text)
  rw [Finds, found]
  refine ⟨⟨_, List.mem_cons_self, _, rfl, rfl⟩, ?_⟩
  have reset : { c.past (declared gap visibility gap₁ name gap₂) with captures := [] } =
      c.past (declared gap visibility gap₁ name gap₂) := by
    rw [← bare]
    rfl
  exact reset ▸ List.subset_cons_self _ _

/-- Every module that a header declares is found. -/
theorem finds_of_declarations {names : List (List Char)} {header : List Char}
    (h : Header names header) (start : c.before = none ∨ c.before = some '\n')
    (bare : c.captures = []) (text : c.rest = header ++ more) :
    ∀ name ∈ names, Finds rustChild c name := by
  induction h generalizing c with
  | nil => nofun
  | @comment names gap cs header blanks comment _ ih =>
      intro name there
      have line : c.rest = gap ++ (cs ++ (header ++ more)) := by simpa using text
      have feed := before_past_lineRest c gap (.comment comment)
      rw [Finds, beginsLines_rustChild.found_past_comment blanks comment line]
      refine ih (.inr feed) bare (Cursor.rest_past ?_) name there
      rw [line, List.append_assoc]
  | @declaration names gap visibility gap₁ name gap₂ behind header blanks front blanks₁ some₁ word
      blanks₂ line_rest _ ih =>
      have closed : ∀ cs, Rust.IsWord cs → ')' ∉ cs := fun cs word there =>
        Bool.noConfusion ((word.parts _ there).1 : false = true)
      have line : c.rest = declared gap visibility gap₁ name gap₂ ++
          (behind ++ (header ++ more)) := by simpa [declared] using text
      obtain ⟨found, subset⟩ := found_of_declaration bare start line blanks (front.mono closed)
        blanks₁ some₁ word blanks₂
      have semicolon : (c.past (declared gap visibility gap₁ name gap₂)).before = some ';' := by
        simp only [declared, ← List.append_assoc]
        exact Cursor.before_past_append_singleton _ _ _
      rw [beginsLines_rustChild.found_past_lineRest semicolon (by decide) line_rest
        (Cursor.rest_past line), Cursor.past_past] at subset
      refine List.forall_mem_cons.mpr ⟨found, fun name there => ?_⟩
      refine (ih (.inr (before_past_lineRest c _ line_rest)) bare (Cursor.rest_past ?_) name
        there).of_subset subset
      rw [line, List.append_assoc]

/-- The child module of a Rust file with some name. -/
def ofRustName (path : String) (name : List Char) : Specifier :=
  let directory := rustModuleDirectory path
  rustModule (if directory = "" then String.ofList name else directory ++ "/" ++ String.ofList name)

/-- Every module that the header of a Rust file declares is among its specifiers. -/
theorem ofRustName_mem_inRust {names : List (List Char)} {header : List Char}
    (h : Header names header) (path : String) (more : List Char) :
    ∀ name ∈ names, ofRustName path name ∈ inRust path (header ++ more) := by
  intro name there
  obtain ⟨d, found, capture, first, rfl⟩ :=
    finds_of_declarations h (c := Cursor.start (header ++ more)) (.inl rfl) rfl rfl name there
  have listed := List.mem_filterMap (f := fun c : Cursor => c.capture? 1).mpr ⟨d, found, first⟩
  exact List.mem_map.mpr ⟨capture, listed, rfl⟩

end CommitSplit.Specifier
