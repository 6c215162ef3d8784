import CommitSplit.Proofs.Imports.Python.Lines
import CommitSplit.Proofs.Text.Lines

/-!
# Lists of imported names

Of a list of names only the front is taken in: it ends at the first character that neither names,
commas nor blanks are made of. What is read from it are the names up to the first one that something
else stands behind.
-/

namespace CommitSplit.Text

variable {α : Type} {p : α → Bool} {u v : List α} {separator : Char} {front rest : List Char}

/-- A prefix of some kind ends in the first part or takes all of it in. -/
theorem takeWhile_append_eq (p : α → Bool) (u v : List α) :
    (u ++ v).takeWhile p = if u.all p then u ++ v.takeWhile p else u.takeWhile p := by
  induction u with
  | nil => rfl
  | cons x u ih =>
      by_cases here : p x = true
      · rw [List.cons_append, List.takeWhile_cons_of_pos here, ih, List.all_cons, here,
          Bool.true_and, List.takeWhile_cons_of_pos here]
        split <;> rfl
      · simp [here]

theorem mem_takeWhile_append {x : α} (there : x ∈ (u ++ v).takeWhile p) :
    x ∈ u.takeWhile p ∨ x ∈ v.takeWhile p := by
  rw [takeWhile_append_eq] at there
  split at there
  · rename_i all
    rw [List.takeWhile_eq_self_iff.mpr (List.all_eq_true.mp all)]
    exact List.mem_append.mp there
  · exact .inl there

/-- What holds no separator is part of the first piece. -/
theorem splitOn_append_of_notMem (apart : separator ∉ front) (rest : List Char) :
    splitOn separator (front ++ rest) = (splitOn separator rest).modifyHead (front ++ ·) := by
  induction front with
  | nil => exact (congrFun List.modifyHead_id _).symm
  | cons x front ih =>
      rw [List.mem_cons, not_or] at apart
      rw [List.cons_append, splitOn_cons, if_neg (Ne.symm apart.1), ih apart.2]
      cases splitOn separator rest <;> rfl

theorem dropEndWhile_append_of_forall (dropped : ∀ x ∈ v, p x = true) :
    dropEndWhile p (u ++ v) = dropEndWhile p u := by
  have reversed : ∀ x ∈ v.reverse, p x = true := fun x there => dropped x (by simpa using there)
  rw [dropEndWhile, List.reverse_append, List.dropWhile_append_of_pos reversed, dropEndWhile]

end CommitSplit.Text

namespace CommitSplit.Python

open Source (IsBlanks)
open Specifier

variable {enclosed : Bool} {name behind gap renamed w more : List Char} {x : Char}

/-! ## Reading lists of names -/

/-- The names up to the first one with something behind it that is not accepted. -/
def reached (accepts : Char → Bool) : List Item → List (List Char)
  | [] => []
  | item :: items =>
    item.name :: if item.behind.all accepts then reached accepts items else []

/-- The names of modules among some names; a star stands for no module. -/
def withoutStar (names : List (List Char)) : List (List Char) :=
  names.filter (· ≠ ['*'])

theorem withoutStar_cons (name : List Char) (names : List (List Char)) :
    withoutStar (name :: names) = withoutStar [name] ++ withoutStar names := by
  rw [← List.singleton_append, withoutStar, List.filter_append]
  rfl

/-- A name without blanks and commas. -/
structure IsListed (name : List Char) : Prop where
  some_char : name ≠ []
  accepted : ∀ c ∈ name, isNamesChar c = true
  visible : ∀ c ∈ name, Text.isBlank c = false
  apart : ',' ∉ name

theorem IsName.isListed (h : IsName name) : IsListed name where
  some_char := h.some_char
  accepted c there := by simp [isNamesChar, h.parts c there]
  visible c there := isBlank_of_isWordChar (h.parts c there)
  apart there := absurd (h.parts _ there) (by decide)

theorem isListed_star : IsListed ['*'] where
  some_char := by decide
  accepted := List.all_iff_forall_prop.mp (by decide)
  visible := List.all_iff_forall_prop.mp (by decide)
  apart := by decide

/-- The end of what is taken in behind a name. -/
structure IsStub (w : List Char) : Prop where
  apart : ',' ∉ w
  blank : ∀ x ∈ w.head?, Text.isBlank x = true

theorem isStub_of_isBlanks (blanks : IsBlanks w) : IsStub w where
  apart there := absurd (blanks _ there) (by decide)
  blank x first := blanks x (List.mem_of_head? first)

theorem firstWord_append (listed : IsListed name) (stub : IsStub w) :
    Text.firstWord (name ++ w) = name := by
  obtain ⟨x, name, rfl⟩ := List.exists_cons_of_ne_nil listed.some_char
  have kept : (x :: name ++ w).dropWhile Text.isBlank = x :: name ++ w := by
    refine Text.dropWhile_eq_self_iff.mpr ?_
    rintro _ ⟨⟩
    exact listed.visible x List.mem_cons_self
  rw [Text.firstWord, kept]
  refine (Source.span_append (fun c there => ?_) fun c first => ?_).1
  · rw [listed.visible c there]
    rfl
  · rw [stub.blank c first]
    rfl

theorem importedNames_append (listed : IsListed name) (stub : IsStub w) :
    importedNames (name ++ w) = withoutStar [name] := by
  have apart : ',' ∉ name ++ w := by simp [listed.apart, stub.apart]
  rw [importedNames, Text.splitOn_eq_singleton apart, List.map_singleton,
    firstWord_append listed stub, withoutStar]
  exact List.filter_congr fun x there => by simp [List.mem_singleton.mp there, listed.some_char]

theorem importedNames_append_cons (listed : IsListed name) (stub : IsStub w) (rest : List Char) :
    importedNames (name ++ (w ++ ',' :: rest)) =
      withoutStar [name] ++ importedNames rest := by
  have apart : ',' ∉ name ++ w := by simp [listed.apart, stub.apart]
  have alone := importedNames_append listed stub
  rw [importedNames, Text.splitOn_eq_singleton apart, List.map_singleton] at alone
  rw [← List.append_assoc, importedNames, Text.splitOn_append_cons apart, List.map_cons,
    ← List.singleton_append (l := List.map _ _), List.filter_append, alone, importedNames]

theorem importedNames_append_blanks (blanks : IsBlanks gap) (rest : List Char) :
    importedNames (gap ++ rest) = importedNames rest := by
  obtain ⟨piece, pieces, split⟩ := List.exists_cons_of_ne_nil (Text.splitOn_ne_nil ',' rest)
  have apart : ',' ∉ gap := (isStub_of_isBlanks blanks).apart
  have same : Text.firstWord (gap ++ piece) = Text.firstWord piece := by
    rw [Text.firstWord, Text.firstWord, List.dropWhile_append_of_pos blanks]
  rw [importedNames, importedNames, Text.splitOn_append_of_notMem apart, split,
    List.modifyHead_cons, List.map_cons, List.map_cons, same]

theorem importedNames_blanks (blanks : IsBlanks gap) : importedNames gap = [] := by
  have alone := importedNames_append_blanks blanks []
  rw [List.append_nil] at alone
  exact alone.trans (by decide)

/-! ## What is taken in of a list -/

theorem IsGap.isBlanks_takeWhile (h : IsGap enclosed gap) :
    IsBlanks (gap.takeWhile isNamesChar) := by
  induction h with
  | nil => exact nofun
  | joined _ _ _ | comment _ _ _ _ _ => exact nofun
  | ending _ line _ _ => cases line <;> exact nofun
  | @space c gap space _ ih =>
      by_cases accepted : isNamesChar c = true
      · rw [List.takeWhile_cons_of_pos accepted]
        exact List.forall_mem_cons.mpr ⟨isBlank_of_isSpace space, ih⟩
      · rw [List.takeWhile_cons_of_neg accepted]
        exact nofun

theorem IsGap.isBlanks_of_all (h : IsGap enclosed gap) (all : gap.all isNamesChar = true) :
    IsBlanks gap := by
  rw [← List.takeWhile_eq_self_iff.mpr (List.all_eq_true.mp all)]
  exact h.isBlanks_takeWhile

/-- What is taken in of an alias holds no comma. -/
theorem IsAlias.isStub (h : IsAlias enclosed renamed)
    (blanks : IsBlanks (more.takeWhile isNamesChar)) :
    IsStub ((renamed ++ more).takeWhile isNamesChar) := by
  cases h with
  | none => exact isStub_of_isBlanks blanks
  | @named gap gap' name spaced some_gap spaced' _ named =>
      have no_comma {gap : List Char} (blanks : IsBlanks (gap.takeWhile isNamesChar)) :=
        (isStub_of_isBlanks blanks).apart
      rw [List.append_assoc]
      refine ⟨fun there => ?_, fun x first => ?_⟩
      · rcases Text.mem_takeWhile_append there with there | there
        · exact no_comma spaced.isBlanks_takeWhile there
        rw [List.append_assoc, List.append_assoc] at there
        rcases Text.mem_takeWhile_append there with there | there
        · exact absurd there (by decide)
        rcases Text.mem_takeWhile_append there with there | there
        · exact no_comma spaced'.isBlanks_takeWhile there
        rcases Text.mem_takeWhile_append there with there | there
        · exact named.isListed.apart ((List.takeWhile_sublist _).subset there)
        · exact no_comma blanks there
      · obtain ⟨y, gap, rfl⟩ := List.exists_cons_of_ne_nil some_gap
        have within := spaced.isBlanks_takeWhile
        rw [List.cons_append, List.takeWhile_cons] at first
        rw [List.takeWhile_cons] at within
        split at first
        · rename_i accepted
          obtain rfl := Option.some.inj first
          rw [if_pos accepted] at within
          exact within y List.mem_cons_self
        · cases first

/-- Behind a comma the reading goes on if all in front of the next name is taken in. -/
theorem importedNames_separator (listed : IsListed name) (h : IsSeparator enclosed behind)
    (rest : List Char) :
    importedNames ((name ++ (behind ++ rest)).takeWhile isNamesChar) =
      withoutStar [name] ++
        if behind.all isNamesChar then importedNames (rest.takeWhile isNamesChar) else [] := by
  obtain @⟨renamed, gap, gap', named, spaced, spaced'⟩ := h
  have stub : IsStub ((renamed ++ gap).takeWhile isNamesChar) :=
    named.isStub spaced.isBlanks_takeWhile
  have total : ((renamed ++ gap) ++ ',' :: gap').all isNamesChar =
      ((renamed ++ gap).all isNamesChar && gap'.all isNamesChar) := by
    rw [List.all_append, List.all_cons]
    rfl
  rw [List.takeWhile_append_of_pos listed.accepted, List.append_assoc, Text.takeWhile_append_eq,
    total]
  by_cases front : (renamed ++ gap).all isNamesChar = true
  · rw [List.takeWhile_eq_self_iff.mpr (List.all_eq_true.mp front)] at stub
    rw [if_pos front, List.cons_append, List.takeWhile_cons_of_pos (by decide),
      importedNames_append_cons listed stub, front, Bool.true_and, Text.takeWhile_append_eq]
    by_cases back : gap'.all isNamesChar = true
    · rw [if_pos back, if_pos back, importedNames_append_blanks (spaced'.isBlanks_of_all back)]
    · rw [if_neg back, if_neg back, importedNames_blanks spaced'.isBlanks_takeWhile]
  · rw [if_neg front, importedNames_append listed stub, Bool.eq_false_iff.mpr front]
    simp

theorem importedNames_ending (listed : IsListed name) (h : IsEnding enclosed behind)
    (blanks : IsBlanks (more.takeWhile isNamesChar)) :
    importedNames ((name ++ (behind ++ more)).takeWhile isNamesChar) =
      withoutStar [name] := by
  cases h with
  | bare named =>
      rw [List.takeWhile_append_of_pos listed.accepted,
        importedNames_append listed (named.isStub blanks)]
  | @gap renamed gap named spaced =>
      have all_blanks : IsBlanks ((gap ++ more).takeWhile isNamesChar) := fun x there =>
        (Text.mem_takeWhile_append there).elim (spaced.isBlanks_takeWhile x) (blanks x)
      rw [List.takeWhile_append_of_pos listed.accepted, List.append_assoc,
        importedNames_append listed (named.isStub all_blanks)]
  | comma separated =>
      rw [importedNames_separator listed separated, importedNames_blanks blanks, ite_self,
        List.append_nil]

/-- The names that are read from a list. -/
theorem IsList.importedNames_takeWhile {isWord : List Char → Prop} {items : List Item}
    (h : IsList enclosed isWord items) (listed : ∀ cs, isWord cs → IsListed cs)
    (blanks : IsBlanks (more.takeWhile isNamesChar)) :
    importedNames ((spell items ++ more).takeWhile isNamesChar) =
      withoutStar (reached isNamesChar items) := by
  induction h with
  | @last item word ending =>
      have none_further : (if item.behind.all isNamesChar then reached isNamesChar [] else []) =
          [] := ite_self _
      rw [spell_cons, spell_nil, List.append_nil, List.append_assoc,
        importedNames_ending (listed _ word) ending blanks, reached, none_further]
  | @cons item items word separated _ ih =>
      rw [spell_cons, List.append_assoc, List.append_assoc,
        importedNames_separator (listed _ word) separated, ih, reached,
        withoutStar_cons item.name (ite _ _ _)]
      split <;> rfl

/-! ## Lists of modules -/

/-- Whether an import of modules goes on over a character behind a module. -/
def isListChar (x : Char) : Bool :=
  Text.isBlank x || x = ','

/-- What is taken in behind the first module of a list. -/
def further : List Item → List Char
  | [] | [_] => []
  | item :: next :: items =>
    if item.behind.all isListChar then item.behind ++ (next.name ++ further (next :: items)) else []

theorem IsGap.isBlanks_of_isListChar (h : IsGap false gap) (all : ∀ x ∈ gap, isListChar x = true) :
    IsBlanks gap := by
  induction h with
  | nil => exact nofun
  | space space _ ih =>
      obtain ⟨-, all⟩ := List.forall_mem_cons.mp all
      exact List.forall_mem_cons.mpr ⟨isBlank_of_isSpace space, ih all⟩
  | joined _ _ _ => exact absurd (all '\\' List.mem_cons_self) (by decide)
  | ending enclosed _ _ _ | comment enclosed _ _ _ _ => cases enclosed

/-- A separator of modules is taken in if there are only blanks around its comma. -/
theorem IsSeparator.exists_of_isListChar (h : IsSeparator false behind)
    (all : behind.all isListChar = true) :
    ∃ gap gap', behind = gap ++ ',' :: gap' ∧ IsBlanks gap ∧ IsBlanks gap' := by
  obtain @⟨renamed, gap, gap', named, spaced, spaced'⟩ := h
  have all := List.all_eq_true.mp all
  cases named with
  | none =>
      refine ⟨gap, gap', rfl, spaced.isBlanks_of_isListChar fun x there => all x ?_,
        spaced'.isBlanks_of_isListChar fun x there => all x ?_⟩ <;> simp [there]
  | named _ _ _ _ _ => exact absurd (all 'a' (by simp)) (by decide)

theorem trimChars_blanks_append (blanks : IsBlanks gap) (w : List Char) :
    Text.trimChars (gap ++ w) = Text.trimChars w := by
  rw [Text.trimChars, Text.trimChars, List.dropWhile_append_of_pos blanks]

theorem trimChars_append_blanks (visible : ∀ c ∈ name, Text.isBlank c = false)
    (blanks : IsBlanks gap) : Text.trimChars (name ++ gap) = name := by
  cases name with
  | nil =>
      rw [List.nil_append, Text.trimChars, List.dropWhile_eq_nil_iff.mpr blanks]
      rfl
  | cons x name =>
      have kept : (x :: name ++ gap).dropWhile Text.isBlank = x :: name ++ gap := by
        refine Text.dropWhile_eq_self_iff.mpr ?_
        rintro _ ⟨⟩
        exact visible x List.mem_cons_self
      rw [Text.trimChars, kept, Text.dropEndWhile_append_of_forall blanks,
        Text.dropEndWhile_of_forall visible]

theorem IsWritten.visible (h : IsWritten name) : ∀ c ∈ name, Text.isBlank c = false :=
  fun c there => isBlank_of_isModuleChar (h.parts c there)

theorem IsWritten.comma_notMem (h : IsWritten name) : ',' ∉ name :=
  fun there => absurd (h.parts _ there) (by decide)

theorem map_trimChars_splitOn_blanks_append (blanks : IsBlanks gap) (w : List Char) :
    (Text.splitOn ',' (gap ++ w)).map Text.trimChars =
      (Text.splitOn ',' w).map Text.trimChars := by
  obtain ⟨piece, pieces, split⟩ := List.exists_cons_of_ne_nil (Text.splitOn_ne_nil ',' w)
  rw [Text.splitOn_append_of_notMem (isStub_of_isBlanks blanks).apart, split,
    List.modifyHead_cons, List.map_cons, List.map_cons, trimChars_blanks_append blanks]

theorem map_trimChars_splitOn_name (h : IsWritten name) :
    (Text.splitOn ',' name).map Text.trimChars = [name] := by
  rw [Text.splitOn_eq_singleton h.comma_notMem, List.map_singleton,
    Text.trimChars_of_forall h.visible]

/-- The modules that are read from a list. -/
theorem IsList.modules_further {item : Item} {items : List Item}
    (h : IsList false IsModule (item :: items)) :
    (Text.splitOn ',' (item.name ++ further (item :: items))).map Text.trimChars =
      reached isListChar (item :: items) := by
  induction items generalizing item with
  | nil =>
      cases h with
      | last word _ =>
          rw [further, List.append_nil, map_trimChars_splitOn_name word.isWritten, reached, reached,
            ite_self]
      | cons _ _ listed => cases listed
  | cons next items ih =>
      cases h with
      | cons word separated listed =>
          rw [further, reached]
          by_cases all : item.behind.all isListChar = true
          · obtain ⟨gap, gap', behind, blanks, blanks'⟩ := separated.exists_of_isListChar all
            have apart : ',' ∉ item.name ++ gap := by
              simp [word.isWritten.comma_notMem, (isStub_of_isBlanks blanks).apart]
            have text : item.name ++ (item.behind ++ (next.name ++ further (next :: items))) =
                (item.name ++ gap) ++ ',' :: (gap' ++ (next.name ++ further (next :: items))) := by
              rw [behind]
              simp
            rw [if_pos all, if_pos all, text, Text.splitOn_append_cons apart, List.map_cons,
              trimChars_append_blanks word.isWritten.visible blanks,
              map_trimChars_splitOn_blanks_append blanks', ih listed]
          · rw [if_neg all, if_neg all, List.append_nil, map_trimChars_splitOn_name word.isWritten]

end CommitSplit.Python
