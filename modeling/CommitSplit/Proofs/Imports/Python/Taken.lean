import CommitSplit.Proofs.Imports.Python.Names
import CommitSplit.Proofs.Imports.Python.Search

/-!
# What is taken in of an import of names

Behind the word `import` a search goes on over blanks, perhaps a parenthesis, and blanks again to
the names. If something else stands there the search gives blanks back, and takes in some of them as
if they were names: then no name is read, but the module is.
-/

namespace CommitSplit.Python

open Source (IsBlanks)
open Specifier
open Text (Capture Cursor Pattern)
open Text.Pattern

variable {c d : Cursor} {p : Pattern} {o : Origin} {items : List Item}
  {more rest text tail spare gap gap' u v : List Char} {x : Char}

/-- The part of the pattern that takes in the names. -/
def namesPattern : Pattern :=
  seq (optional (Pattern.text "(")) (seq (many blank) (group 2 (many1 (one isNamesChar))))

/-- The part behind the word `import`. -/
def listPattern : Pattern :=
  seq (many1 blank) namesPattern

theorem feed_notMem_of_isNamesChar (accepted : ∀ x ∈ u, isNamesChar x = true) : '\n' ∉ u :=
  fun there => absurd (accepted _ there) (by decide)

/-! ## Lists that are reached -/

theorem match?_list {opening : List Char} (opened : opening = [] ∧ gap' = [] ∨ opening = ['('])
    (blanks : IsBlanks gap) (some_gap : gap ≠ []) (blanks' : IsBlanks gap')
    (text : c.rest = gap ++ (opening ++ (gap' ++ (u ++ rest)))) (some_char : u ≠ [])
    (accepted : ∀ x ∈ u, isNamesChar x = true) (visible : ∀ x ∈ u.head?, Text.isBlank x = false)
    (stops : ∀ x ∈ rest.head?, isNamesChar x = false) :
    ∃ offset, listPattern.match? c = some { c.past ((gap ++ (opening ++ gap')) ++ u) with
      captures := (2, ⟨offset, u⟩) :: c.captures } := by
  have first : ∀ x ∈ (u ++ rest).head?, Text.isBlank x = false := by
    obtain ⟨y, u, rfl⟩ := List.exists_cons_of_ne_nil some_char
    exact visible
  have plain : ∀ x ∈ (opening ++ (gap' ++ (u ++ rest))).head?, Text.isBlank x = false := by
    rcases opened with ⟨rfl, rfl⟩ | rfl
    · exact first
    · rintro _ ⟨⟩
      decide
  have front := match?_plus text some_gap blanks plain
  have at_opening : (c.past gap).rest = opening ++ (gap' ++ (u ++ rest)) := Cursor.rest_past text
  have opens : (optional (Pattern.text "(")).match? (c.past gap) =
      some ((c.past gap).past opening) := by
    rcases opened with ⟨rfl, rfl⟩ | rfl
    · have nothing : (Pattern.text "(").run (c.past gap) = [] := by
        rw [List.eq_nil_iff_forall_not_mem]
        intro d h
        obtain ⟨text', -⟩ := mem_run_text h
        obtain ⟨y, u, rfl⟩ := List.exists_cons_of_ne_nil some_char
        obtain ⟨rfl, -⟩ := List.cons.inj (at_opening.symm.trans text')
        exact absurd (accepted _ List.mem_cons_self) (by decide)
      rw [Pattern.optional, match?_right nothing, Cursor.past_nil]
      rfl
    · exact match?_left (match?_text at_opening)
  have behind := Cursor.rest_past at_opening
  have listed := Cursor.rest_past behind
  have matched : listPattern.match? c = some _ :=
    match?_seq front (match?_seq opens (match?_seq (match?_star_one behind blanks' first)
      (match?_group (match?_plus listed some_char accepted stops) listed)))
  have reached : ((c.past gap).past opening).past gap' = c.past (gap ++ (opening ++ gap')) := by
    rw [Cursor.past_past, Cursor.past_past]
  rw [reached, Cursor.past_past] at matched
  exact ⟨_, matched⟩

theorem mem_run_list (h : d ∈ listPattern.run c) :
    ∃ v opening gap u offset, v ≠ [] ∧ IsBlanks v ∧ (opening = [] ∨ opening = ['(']) ∧
      IsBlanks gap ∧ u ≠ [] ∧ (∀ x ∈ u, isNamesChar x = true) ∧
      c.rest = v ++ (opening ++ (gap ++ (u ++ d.rest))) ∧
      d = { c.past ((v ++ (opening ++ gap)) ++ u) with
        captures := (2, ⟨offset, u⟩) :: c.captures } := by
  obtain ⟨c₁, front, h⟩ := mem_run_seq.mp h
  obtain ⟨c₂, opens, h⟩ := mem_run_seq.mp h
  obtain ⟨c₃, skipped, list⟩ := mem_run_seq.mp h
  obtain ⟨v, some_gap, text, rfl, blanks⟩ := mem_run_plus front
  obtain ⟨opening, text', rfl, opened⟩ : ∃ opening, (c.past v).rest = opening ++ c₂.rest ∧
      c₂ = (c.past v).past opening ∧ (opening = [] ∨ opening = ['(']) := by
    rcases mem_run_alt.mp opens with parenthesis | nothing
    · obtain ⟨text', rfl⟩ := mem_run_text parenthesis
      exact ⟨_, text', rfl, .inr rfl⟩
    · rw [List.mem_singleton.mp nothing]
      exact ⟨[], rfl, (Cursor.past_nil _).symm, .inl rfl⟩
  obtain ⟨gap, text'', rfl, blanks'⟩ := mem_run_star_one skipped
  obtain ⟨u, text₄, taken, rfl⟩ := mem_run_group rfl list
  obtain ⟨u', some_char, text₅, -, accepted⟩ := mem_run_plus taken
  obtain rfl : u' = u := List.append_cancel_right
    (text₅.symm.trans (text₄.trans (by rw [Cursor.rest_past text₄])))
  have reached : ((c.past v).past opening).past gap = c.past (v ++ (opening ++ gap)) := by
    rw [Cursor.past_past, Cursor.past_past]
  rw [text'', text₄, reached, Cursor.past_past] at text'
  rw [reached, Cursor.past_past]
  exact ⟨v, opening, gap, u', _, some_gap, blanks, opened, blanks', some_char, accepted,
    text.trans (congrArg _ text'), rfl⟩

/-! ## Lists that are not reached -/

/-- The blanks of a text end, perhaps behind a parenthesis, at something that no list begins with.
All of them but the first in front of the parenthesis leave room for a match. -/
inductive IsBlocked : List Char → List Char → Prop
  | bare {gap rest : List Char} {x : Char} : IsBlanks gap → x ∈ ['\\', '#'] →
      IsBlocked gap.tail (gap ++ x :: rest)
  | opened {gap gap' rest : List Char} {x : Char} : IsBlanks gap → gap ≠ [] → IsBlanks gap' →
      x ∈ ['\\', '#'] → IsBlocked (gap.tail ++ gap') (gap ++ '(' :: (gap' ++ x :: rest))

theorem eq_append_of_isBlanks (blanks : IsBlanks v) (accepted : ∀ y ∈ u, isNamesChar y = true)
    (plain : Text.isBlank x = false) (other : isNamesChar x = false)
    (same : v ++ (u ++ rest) = gap ++ x :: more) : ∃ left, gap = v ++ (u ++ left) := by
  have notMem : x ∉ v ++ u := by
    intro there
    rcases List.mem_append.mp there with there | there
    · rw [blanks x there] at plain
      cases plain
    · rw [accepted x there] at other
      cases other
  rw [← List.append_assoc] at same
  rcases List.append_eq_append_iff.mp same with ⟨left, split, -⟩ | ⟨left, split, behind⟩
  · exact ⟨left, by rw [split, List.append_assoc]⟩
  · cases left with
    | nil => exact ⟨[], by simpa using split.symm⟩
    | cons y left =>
        obtain ⟨rfl, -⟩ := List.cons.inj behind
        exact absurd (by simp [split]) notMem

theorem mem_tail_append (some_gap : v ≠ []) (there : x ∈ u) : x ∈ (v ++ u).tail := by
  obtain ⟨y, v, rfl⟩ := List.exists_cons_of_ne_nil some_gap
  exact List.mem_append_right v there

/-- Without a parenthesis a match ends in the blanks up to the first visible character. -/
theorem within_of_bare {gap₁ : List Char} (blanks : IsBlanks v) (some_gap : v ≠ [])
    (blanks' : IsBlanks gap) (accepted : ∀ y ∈ u, isNamesChar y = true) (blanks₁ : IsBlanks gap₁)
    (plain : Text.isBlank x = false) (other : isNamesChar x = false)
    (same : v ++ (gap ++ (u ++ rest)) = gap₁ ++ x :: more) :
    (∃ left, gap₁ = (v ++ gap) ++ (u ++ left)) ∧ IsBlanks u ∧ ∀ y ∈ u, y ∈ gap₁.tail := by
  rw [← List.append_assoc] at same
  obtain ⟨left, rfl⟩ := eq_append_of_isBlanks (List.forall_mem_append.mpr ⟨blanks, blanks'⟩)
    accepted plain other same
  refine ⟨⟨left, rfl⟩, fun y there => blanks₁ y (by simp [there]), fun y there => ?_⟩
  rw [List.append_assoc]
  exact mem_tail_append some_gap (by simp [there])

/-- A match takes in blanks for names. -/
theorem IsBlocked.mem_run (h : IsBlocked spare text) (stands : c.rest = text ++ more)
    (matched : d ∈ listPattern.run c) :
    ∃ v u left offset, text = v ++ (u ++ left) ∧ u ≠ [] ∧ IsBlanks u ∧
      (∀ x ∈ u, isNamesChar x = true ∧ x ∈ spare) ∧
      d = { c.past (v ++ u) with captures := (2, ⟨offset, u⟩) :: c.captures } := by
  obtain ⟨v, opening, gap, u, offset, some_gap, blanks, opened, blanks', some_char, accepted, split,
    rfl⟩ := mem_run_list matched
  rw [stands] at split
  have stops : ∀ x ∈ ['\\', '#'], Text.isBlank x = false ∧ isNamesChar x = false :=
    List.all_iff_forall_prop.mp (by decide)
  cases h with
  | @bare gap₁ rest x blanks₁ stop =>
      obtain ⟨plain, other⟩ := stops x stop
      rw [List.append_assoc] at split
      rcases opened with rfl | rfl
      · obtain ⟨⟨left, rfl⟩, blank, inside⟩ := within_of_bare blanks some_gap blanks' accepted
          blanks₁ plain other split.symm
        exact ⟨_, u, left ++ x :: rest, offset, by simp, some_char, blank,
          fun y there => ⟨accepted y there, inside y there⟩, rfl⟩
      · obtain ⟨-, rfl, -⟩ := eq_of_isBlanks_append blanks₁ blanks plain (by decide) split
        exact absurd stop (by decide)
  | @opened gap₁ gap₂ rest x blanks₁ _ blanks₂ stop =>
      rw [List.append_assoc] at split
      rcases opened with rfl | rfl
      · obtain ⟨⟨left, rfl⟩, blank, inside⟩ := within_of_bare blanks some_gap blanks' accepted
          blanks₁ (by decide) (by decide) split.symm
        exact ⟨_, u, left ++ '(' :: (gap₂ ++ x :: rest), offset, by simp, some_char, blank,
          fun y there => ⟨accepted y there, List.mem_append_left _ (inside y there)⟩, rfl⟩
      · simp only [List.append_assoc, List.cons_append, List.nil_append] at split
        obtain ⟨rfl, -, behind⟩ := eq_of_isBlanks_append blanks₁ blanks (by decide) (by decide)
          split
        obtain ⟨plain, other⟩ := stops x stop
        obtain ⟨left, rfl⟩ := eq_append_of_isBlanks blanks' accepted plain other behind.symm
        exact ⟨_, u, left ++ x :: rest, offset, by simp, some_char,
          fun y there => blanks₂ y (by simp [there]),
          fun y there => ⟨accepted y there, List.mem_append_right _ (by simp [there])⟩, rfl⟩

theorem meets_group {number : Nat} (h : Meets p text) : Meets (group number p) text := by
  intro c stands nothing
  exact h c stands (List.map_eq_nil_iff.mp nothing)

theorem meets_names (accepted : isNamesChar x = true) (rest : List Char) :
    Meets (group 2 (many1 (one isNamesChar))) (x :: rest) := by
  have once : Passes (many1 (one isNamesChar)) [x] :=
    Passes.plus (List.forall_mem_singleton.mpr accepted)
  exact meets_group fun c stands => List.ne_nil_of_mem (once c rest stands)

theorem passes_blanks (blanks : IsBlanks gap) (some_gap : gap ≠ []) : Passes (many1 blank) gap := by
  obtain ⟨x, gap, rfl⟩ := List.exists_cons_of_ne_nil some_gap
  exact Passes.plus blanks

/-- A match is possible if there is room for one. -/
theorem IsBlocked.run_eq_nil_iff (h : IsBlocked spare text) (stands : c.rest = text ++ more) :
    listPattern.run c = [] ↔ ∀ x ∈ spare, isNamesChar x = false := by
  constructor
  · intro nothing x there
    by_contra accepted
    rw [Bool.not_eq_false] at accepted
    refine absurd nothing ?_
    -- A blank behind the first one of a gap can be taken for a name.
    have early {gap rest : List Char} (blanks : IsBlanks gap) (begun : text = gap ++ rest)
        (there : x ∈ gap.tail) : listPattern.run c ≠ [] := by
      have some_blank : gap ≠ [] := List.ne_nil_of_mem (List.mem_of_mem_tail there)
      obtain ⟨y, gap, rfl⟩ := List.exists_cons_of_ne_nil some_blank
      obtain ⟨front, back, rfl⟩ := List.append_of_mem there
      have blanks' : IsBlanks (y :: front) := fun z inside => blanks z (by grind)
      have named := meets_names accepted (back ++ (rest ++ more))
      refine (passes_blanks blanks' (List.cons_ne_nil y front)).meets
        (Passes.skipped.meets ((Passes.star (u := []) (by simp)).meets named)) c ?_
      rw [stands, begun]
      simp
    cases h with
    | bare blanks _ => exact early blanks rfl there
    | @opened gap gap' rest y blanks some_gap blanks' _ =>
        rcases List.mem_append.mp there with there | there
        · exact early blanks rfl there
        · obtain ⟨front, back, rfl⟩ := List.append_of_mem there
          have blanks_front : IsBlanks front := fun z inside => blanks' z (by simp [inside])
          refine (passes_blanks blanks some_gap).meets ((Passes.left (Passes.text "(")).meets
            ((Passes.star blanks_front).meets
              (meets_names accepted (back ++ (y :: rest ++ more))))) c ?_
          rw [stands]
          simp
  · intro none_accepted
    rw [List.eq_nil_iff_forall_not_mem]
    intro d matched
    obtain ⟨v, u, left, offset, -, some_char, -, inside, -⟩ := h.mem_run stands matched
    obtain ⟨x, u, rfl⟩ := List.exists_cons_of_ne_nil some_char
    obtain ⟨accepted, there⟩ := inside x List.mem_cons_self
    rw [none_accepted x there] at accepted
    cases accepted

/-! ## Lists of imports -/

theorem IsGap.exists_of_not_all {enclosed : Bool} (h : IsGap enclosed gap)
    (visible : gap.all Text.isBlank = false) :
    ∃ x rest, gap = gap.takeWhile Text.isBlank ++ x :: rest ∧ x ∈ ['\\', '#'] := by
  induction h with
  | nil => cases visible
  | @space c gap space _ ih =>
      have blank := isBlank_of_isSpace space
      obtain ⟨x, rest, split, stop⟩ := ih (by simpa [blank] using visible)
      exact ⟨x, rest, by rw [List.takeWhile_cons_of_pos blank, List.cons_append, ← split], stop⟩
  | @joined ending gap _ _ _ => exact ⟨'\\', ending ++ gap, rfl, by decide⟩
  | @ending ending gap _ line _ ih =>
      have blanks := Source.isBlanks_of_isLineEnd line
      have all : ending.all Text.isBlank = true := List.all_eq_true.mpr blanks
      obtain ⟨x, rest, split, stop⟩ := ih (by simpa [all] using visible)
      refine ⟨x, rest, ?_, stop⟩
      rw [List.takeWhile_append_of_pos blanks, List.append_assoc, ← split]
  | @comment cs ending gap _ _ _ _ _ => exact ⟨'#', cs ++ (ending ++ gap), rfl, by decide⟩

theorem isBlanks_takeWhile (cs : List Char) : IsBlanks (cs.takeWhile Text.isBlank) :=
  fun _ => List.mem_takeWhile_imp

theorem IsList.first {isWord : List Char → Prop} {enclosed : Bool}
    (h : IsList enclosed isWord items) (listed : ∀ cs, isWord cs → IsListed cs) :
    ∃ x rest, spell items = x :: rest ∧ Text.isBlank x = false ∧ isNamesChar x = true := by
  have begins (item : Item) (items : List Item) (word : isWord item.name) :
      ∃ x rest, spell (item :: items) = x :: rest ∧ Text.isBlank x = false ∧
        isNamesChar x = true := by
    obtain ⟨x, name, spelled⟩ := List.exists_cons_of_ne_nil (listed _ word).some_char
    have there : x ∈ item.name := spelled ▸ List.mem_cons_self
    exact ⟨x, _, by rw [spell_cons, spelled]; rfl, (listed _ word).visible x there,
      (listed _ word).accepted x there⟩
  cases h with
  | last word _ => exact begins _ _ word
  | cons word _ _ => exact begins _ _ word

/-- A list goes as far as its characters do, be it to the end of what is looked at. -/
theorem stops_dropWhile (listed : List Char) (ends : ∀ x ∈ more.head?, isNamesChar x = false) :
    ∀ x ∈ (listed.dropWhile isNamesChar ++ more).head?, isNamesChar x = false := by
  have other := List.head?_dropWhile_not isNamesChar listed
  intro x there
  cases behind : listed.dropWhile isNamesChar with
  | nil => exact ends x (by simpa [behind] using there)
  | cons y left =>
      obtain rfl : y = x := by simpa [behind] using there
      simpa [behind] using other

/-- A list that is reached is taken in as far as it goes. -/
theorem takesIn_listed {opening listed : List Char}
    (opened : opening = [] ∧ gap' = [] ∨ opening = ['(']) (blanks : IsBlanks gap)
    (some_gap : gap ≠ []) (blanks' : IsBlanks gap')
    (first : ∃ x rest, listed = x :: rest ∧ Text.isBlank x = false ∧ isNamesChar x = true)
    (ends : ∀ x ∈ more.head?, isNamesChar x = false)
    (stands : c.rest = (gap ++ (opening ++ (gap' ++ listed))) ++ more) :
    ∃ offset, TakesIn listPattern c (gap ++ (opening ++ (gap' ++ listed)))
      ((2, ⟨offset, listed.takeWhile isNamesChar⟩) :: c.captures) := by
  have all : ∀ y ∈ listed.takeWhile isNamesChar, isNamesChar y = true :=
    fun _ => List.mem_takeWhile_imp
  have stops := stops_dropWhile listed ends
  obtain ⟨x, behind, begun, visible, accepted⟩ := first
  have taken : listed.takeWhile isNamesChar = x :: behind.takeWhile isNamesChar := by
    rw [begun, List.takeWhile_cons_of_pos accepted]
  have split := List.takeWhile_append_dropWhile (p := isNamesChar) (l := listed)
  generalize listed.takeWhile isNamesChar = u at *
  generalize listed.dropWhile isNamesChar = left at *
  subst split
  have some_char : u ≠ [] := by
    rw [taken]
    exact List.cons_ne_nil _ _
  have plain : ∀ y ∈ u.head?, Text.isBlank y = false := by
    rw [taken]
    rintro _ ⟨⟩
    exact visible
  have text : c.rest = gap ++ (opening ++ (gap' ++ (u ++ (left ++ more)))) := by
    rw [stands]
    simp
  obtain ⟨offset, matched⟩ := match?_list opened blanks some_gap blanks' text some_char all plain
    stops
  refine ⟨offset, takesIn_of_match? some_char (feed_notMem_of_isNamesChar all) ?_ matched⟩
  simp

namespace Origin

/-- Only blanks, and perhaps a parenthesis, stand in front of the names. -/
def isDirect (o : Origin) : Bool :=
  o.behindImport.all Text.isBlank && (o.opening.getD []).all Text.isBlank

/-- The blanks that can be taken for names where no name is reached. -/
def room (o : Origin) : List Char :=
  (o.behindImport.takeWhile Text.isBlank).tail ++
    if o.behindImport.all Text.isBlank then (o.opening.getD []).takeWhile Text.isBlank else []

/-- There is something to take in behind the word `import`. -/
def isHeard (o : Origin) : Bool :=
  o.behindImport.head?.any Text.isBlank && (o.isDirect || o.room.any isNamesChar)

/-- The names that are read. -/
def heard (o : Origin) (items : List Item) : List (List Char) :=
  if o.isDirect then withoutStar (reached isNamesChar items) else []

theorem Imports.isBlocked (h : o.Imports items) (spaced : IsGap false o.behindImport)
    (first : o.behindImport.head?.any Text.isBlank = true) (indirect : o.isDirect = false) :
    IsBlocked o.room (o.behindImport ++ o.body items) := by
  by_cases blanks : o.behindImport.all Text.isBlank = true
  · rw [isDirect, blanks, Bool.true_and] at indirect
    rw [room, if_pos blanks, List.takeWhile_eq_self_iff.mpr (List.all_eq_true.mp blanks)]
    have some_gap : o.behindImport ≠ [] := by
      intro nothing
      simp [nothing] at first
    cases h with
    | names opening _ _ | all opening => simp [opening] at indirect
    | @enclosed gap _ opening spaced' _ =>
        rw [opening, Option.getD_some] at indirect
        obtain ⟨x, rest, split, stop⟩ := spaced'.exists_of_not_all indirect
        have text : o.body items =
            '(' :: (gap.takeWhile Text.isBlank ++ x :: (rest ++ (spell items ++ [')']))) := by
          rw [body, opening]
          dsimp only
          nth_rewrite 1 [split]
          simp
        rw [text, opening, Option.getD_some]
        exact .opened (List.all_eq_true.mp blanks) some_gap (isBlanks_takeWhile gap) stop
  · rw [Bool.not_eq_true] at blanks
    obtain ⟨x, rest, split, stop⟩ := spaced.exists_of_not_all blanks
    have text : o.behindImport ++ o.body items =
        o.behindImport.takeWhile Text.isBlank ++ x :: (rest ++ o.body items) := by
      nth_rewrite 1 [split]
      simp
    rw [room, blanks, text]
    simp only [Bool.false_eq_true, if_false, List.append_nil]
    exact .bare (isBlanks_takeWhile _) stop

/-- What is imported is listed, be it names or a star. -/
theorem Imports.exists_isList (h : o.Imports items) :
    ∃ isWord, IsList o.opening.isSome isWord items ∧ ∀ cs, isWord cs → IsListed cs := by
  cases h with
  | names opening _ listed =>
      rw [opening]
      exact ⟨IsName, listed, fun _ => IsName.isListed⟩
  | all opening =>
      rw [opening]
      exact ⟨(· = ['*']), .last rfl (.bare .none), by rintro _ rfl; exact isListed_star⟩
  | enclosed opening _ listed =>
      rw [opening]
      exact ⟨IsName, listed, fun _ => IsName.isListed⟩

/-- Names that are reached are taken in as far as their list goes. -/
theorem Imports.takesIn_direct (h : o.Imports items) (some_gap : o.behindImport ≠ [])
    (direct : o.isDirect = true) (blanks : IsBlanks (tail.takeWhile isNamesChar))
    (ends : ∀ x ∈ more.head?, isNamesChar x = false)
    (stands : c.rest = (o.behindImport ++ (o.body items ++ tail)) ++ more) :
    ∃ offset names, importedNames names = withoutStar (reached isNamesChar items) ∧
      TakesIn listPattern c (o.behindImport ++ (o.body items ++ tail))
        ((2, ⟨offset, names⟩) :: c.captures) := by
  obtain ⟨front, back⟩ := Bool.and_eq_true_iff.mp direct
  obtain ⟨isWord, listed, written⟩ := h.exists_isList
  obtain ⟨x, rest, begun, visible, accepted⟩ := listed.first written
  have starts (more : List Char) : ∃ x rest, spell items ++ more = x :: rest ∧
      Text.isBlank x = false ∧ isNamesChar x = true :=
    ⟨x, rest ++ more, by rw [begun]; rfl, visible, accepted⟩
  cases opening : o.opening with
  | none =>
      rw [body, opening] at stands ⊢
      obtain ⟨offset, takes⟩ := takesIn_listed (.inl ⟨rfl, rfl⟩) (List.all_eq_true.mp front)
        some_gap (List.forall_mem_nil _) (starts tail) ends stands
      exact ⟨offset, _, listed.importedNames_takeWhile written blanks, takes⟩
  | some gap =>
      rw [opening, Option.getD_some] at back
      have text : o.body items ++ tail = ['('] ++ (gap ++ (spell items ++ ')' :: tail)) := by
        rw [body, opening]
        simp
      rw [text] at stands ⊢
      obtain ⟨offset, takes⟩ := takesIn_listed (.inr rfl) (List.all_eq_true.mp front) some_gap
        (List.all_eq_true.mp back) (starts (')' :: tail)) ends stands
      have closing : IsBlanks ((')' :: tail).takeWhile isNamesChar) := by
        rw [List.takeWhile_cons_of_neg (by decide)]
        exact List.forall_mem_nil _
      exact ⟨offset, _, listed.importedNames_takeWhile written closing, takes⟩

/-- In front of names that are not reached blanks are taken in, and no name is read. -/
theorem Imports.takesIn_room (h : o.Imports items) (spaced : IsGap false o.behindImport)
    (first : o.behindImport.head?.any Text.isBlank = true) (indirect : o.isDirect = false)
    (some_room : o.room.any isNamesChar = true)
    (stands : c.rest = (o.behindImport ++ (o.body items ++ tail)) ++ more) :
    ∃ offset names, importedNames names = [] ∧
      TakesIn listPattern c (o.behindImport ++ (o.body items ++ tail))
        ((2, ⟨offset, names⟩) :: c.captures) := by
  have blocked := h.isBlocked spaced first indirect
  have text : c.rest = (o.behindImport ++ o.body items) ++ (tail ++ more) := by
    rw [stands]
    simp
  cases matched : listPattern.match? c with
  | none =>
      obtain ⟨x, there, accepted⟩ := List.any_eq_true.mp some_room
      have nothing := (blocked.run_eq_nil_iff text).mp (match?_eq_none_iff.mp matched) x there
      rw [accepted] at nothing
      cases nothing
  | some d =>
      obtain ⟨v, u, left, offset, split, some_char, blanks, inside, rfl⟩ :=
        blocked.mem_run text (mem_run_of_match? matched)
      refine ⟨offset, u, importedNames_blanks blanks, takesIn_of_match? some_char
        (feed_notMem_of_isNamesChar fun x there => (inside x there).1) ?_ matched⟩
      rw [← List.append_assoc, split]
      simp

/-- What stands behind the word `import` is taken in up to some place within a line. -/
theorem Imports.takesIn_list (h : o.Imports items) (spaced : IsGap false o.behindImport)
    (heard : o.isHeard = true) (blanks : IsBlanks (tail.takeWhile isNamesChar))
    (ends : ∀ x ∈ more.head?, isNamesChar x = false)
    (stands : c.rest = (o.behindImport ++ (o.body items ++ tail)) ++ more) :
    ∃ offset names, importedNames names = o.heard items ∧
      TakesIn listPattern c (o.behindImport ++ (o.body items ++ tail))
        ((2, ⟨offset, names⟩) :: c.captures) := by
  obtain ⟨first, reachable⟩ := Bool.and_eq_true_iff.mp heard
  have some_gap : o.behindImport ≠ [] := by
    intro nothing
    simp [nothing] at first
  cases direct : o.isDirect with
  | true =>
      rw [Origin.heard, if_pos direct]
      exact h.takesIn_direct some_gap direct blanks ends stands
  | false =>
      rw [Origin.heard, direct]
      rw [direct, Bool.false_or] at reachable
      exact h.takesIn_room spaced first direct reachable stands

/-- Nothing is found if there is nothing to take in. -/
theorem Imports.run_list_eq_nil (h : o.Imports items) (spaced : IsGap false o.behindImport)
    (unheard : o.isHeard = false)
    (stands : c.rest = (o.behindImport ++ o.body items) ++ more) : listPattern.run c = [] := by
  by_cases first : o.behindImport.head?.any Text.isBlank = true
  · rw [isHeard, first, Bool.true_and, Bool.or_eq_false_iff] at unheard
    refine ((h.isBlocked spaced first unheard.1).run_eq_nil_iff stands).mpr fun x there => ?_
    simpa using List.any_eq_false.mp unheard.2 x there
  · rw [List.eq_nil_iff_forall_not_mem]
    intro d matched
    obtain ⟨v, opening, gap, u, offset, some_gap, blanks, -, -, -, -, text, -⟩ :=
      mem_run_list matched
    obtain ⟨x, v, rfl⟩ := List.exists_cons_of_ne_nil some_gap
    have blank := blanks x List.mem_cons_self
    rw [stands] at text
    cases behind : o.behindImport with
    | nil =>
        rw [behind] at text
        cases h with
        | names _ apart _ => exact apart behind
        | all opening =>
            rw [body, opening] at text
            obtain ⟨rfl, -⟩ := List.cons.inj text
            exact absurd blank (by decide)
        | enclosed opening _ _ =>
            rw [body, opening] at text
            obtain ⟨rfl, -⟩ := List.cons.inj text
            exact absurd blank (by decide)
    | cons y gap =>
        rw [behind] at text first
        obtain ⟨rfl, -⟩ := List.cons.inj text
        exact first (by simpa using blank)

end Origin

end CommitSplit.Python
