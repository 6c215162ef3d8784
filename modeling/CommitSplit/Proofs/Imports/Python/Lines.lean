import CommitSplit.Proofs.Imports.Python.Layout
import Mathlib.Data.Bool.AllAny

/-!
# Lines of Python imports

A search for statements begins at the start of a line, behind its blanks, with the word of the
statement. The lines that a statement goes on over begin with something else: with a name, a mark or
a comment. So within the text of a statement no search finds another one.
-/

namespace CommitSplit.Python

open Source (IsBlanks)
open Specifier (isModuleChar isNamesChar isBlank_of_isWordChar isWordChar_of_isBlank)

variable {enclosed : Bool} {cs gap u v more rest word : List Char} {x : Char}

/-! ## Words -/

/-- The words that begin statements. -/
def statementWords : List (List Char) :=
  ["import".toList, "from".toList]

/-- What is written for a name or a module. -/
structure IsWritten (cs : List Char) : Prop where
  first : ∃ c rest, cs = c :: rest ∧ Text.isWordChar c = true
  parts : ∀ c ∈ cs, isModuleChar c = true
  free : cs ∉ statementWords

theorem IsName.isWritten (h : IsName cs) : IsWritten cs where
  first := by
    obtain ⟨c, rest, rfl⟩ := List.exists_cons_of_ne_nil h.some_char
    exact ⟨c, rest, rfl, h.parts c List.mem_cons_self⟩
  parts c there := by simp [isModuleChar, h.parts c there]
  free there := by
    have all : ∀ word ∈ statementWords, String.ofList word ∈ keywords := by decide
    exact h.free (all cs there)

theorem IsModule.isWritten (h : IsModule cs) : IsWritten cs := by
  obtain @⟨names, some_name, named⟩ := h
  refine ⟨?_, fun c there => ?_, fun there => ?_⟩
  · obtain ⟨name, names, rfl⟩ := List.exists_cons_of_ne_nil some_name
    obtain ⟨c, rest, rfl, word⟩ := (named name List.mem_cons_self).isWritten.first
    rcases eq_or_ne names [] with rfl | more
    · exact ⟨c, rest, List.intercalate_singleton, word⟩
    · exact ⟨c, _, List.intercalate_cons_of_ne_nil more, word⟩
  · by_contra other
    refine Text.notMem_intercalate (c := c) ?_ (fun name member inside => ?_) there
    · rintro rfl
      exact other (by decide)
    · exact other ((named name member).isWritten.parts c inside)
  · -- A word without dots is all of the module.
    have undotted : ∀ word ∈ statementWords, Text.splitOn '.' word = [word] := by decide
    have apart : ∀ name ∈ names, '.' ∉ name := by
      intro name member inside
      have dot := (named name member).parts '.' inside
      exact absurd dot (by decide)
    have pieces := Text.splitOn_intercalate apart some_name
    rw [undotted _ there] at pieces
    have only := named _ (by rw [← pieces]; exact List.mem_singleton_self _)
    exact only.isWritten.free there

/-! ## Where statements could begin -/

/-- A search for statements with a word could begin in front of a text. -/
def Opens (word text : List Char) : Prop :=
  ∃ gap b rest, IsBlanks gap ∧ Text.isBlank b = true ∧ text = gap ++ (word ++ b :: rest)

/-- No search could begin. -/
def IsClosed (text : List Char) : Prop :=
  ∀ word ∈ statementWords, ¬Opens word text

theorem exists_cons_of_mem_statementWords (there : word ∈ statementWords) :
    ∃ c rest, word = c :: rest ∧ Text.isBlank c = false := by
  have all : ∀ word ∈ statementWords, word.head?.any (fun c => !Text.isBlank c) = true := by decide
  obtain ⟨c, rest, rfl, plain⟩ := Source.head?_any_iff.mp (all word there)
  exact ⟨c, rest, rfl, by simpa using plain⟩

theorem not_opens_cons (plain : Text.isBlank x = false) (other : word.head? ≠ some x) :
    ¬Opens word (x :: more) := by
  rintro ⟨gap, b, rest, blanks, blank, text⟩
  have first : (gap ++ (word ++ b :: rest)).head? = some x := by rw [← text]; rfl
  cases gap with
  | nil =>
      cases word with
      | nil =>
          obtain rfl := Option.some.inj first
          rw [blank] at plain
          cases plain
      | cons y word => exact other first
  | cons y gap =>
      obtain rfl := Option.some.inj first
      rw [blanks y List.mem_cons_self] at plain
      cases plain

theorem isClosed_cons (plain : Text.isBlank x = false)
    (other : ∀ word ∈ statementWords, word.head? ≠ some x) : IsClosed (x :: more) :=
  fun word there => not_opens_cons plain (other word there)

theorem isClosed_nil : IsClosed [] := by
  rintro word - ⟨gap, b, rest, -, -, text⟩
  simp at text

theorem IsClosed.append_blanks (closed : IsClosed more) (blanks : IsBlanks gap) :
    IsClosed (gap ++ more) := by
  induction gap with
  | nil => exact closed
  | cons x gap ih =>
      obtain ⟨blank, blanks⟩ := List.forall_mem_cons.mp blanks
      rintro word there ⟨gap', b, rest, blanks', blank', text⟩
      cases gap' with
      | nil =>
          obtain ⟨c, word, rfl, plain⟩ := exists_cons_of_mem_statementWords there
          obtain ⟨rfl, -⟩ := List.cons.inj text
          rw [blank] at plain
          cases plain
      | cons y gap' =>
          obtain ⟨-, text⟩ := List.cons.inj text
          exact ih blanks word there
            ⟨gap', b, rest, (List.forall_mem_cons.mp blanks').2, blank', text⟩

theorem isModuleChar_of_isBlank (blank : Text.isBlank x = true) : isModuleChar x = false := by
  have other : x ∉ ".".toList := by
    intro dot
    obtain rfl := List.mem_singleton.mp dot
    exact absurd blank (by decide)
  rw [isModuleChar, isWordChar_of_isBlank blank, decide_eq_false other]
  rfl

theorem isBlank_of_isModuleChar (part : isModuleChar x = true) : Text.isBlank x = false := by
  by_contra blank
  rw [Bool.not_eq_false] at blank
  exact Bool.noConfusion ((isModuleChar_of_isBlank blank).symm.trans part)

/-- A text does not go on with a word. -/
def EndsWord (more : List Char) : Prop :=
  ∀ x ∈ more.head?, isModuleChar x = false

theorem endsWord_cons (apart : isModuleChar x = false) : EndsWord (x :: more) := by
  rintro _ ⟨⟩
  exact apart

/-- A name does not open a statement as long as it ends there. -/
theorem IsWritten.isClosed (h : IsWritten cs) (ends : EndsWord more) : IsClosed (cs ++ more) := by
  rintro word there ⟨gap, b, rest, blanks, blank, text⟩
  obtain rfl : gap = [] := by
    obtain ⟨c, cs, rfl, part⟩ := h.first
    cases gap with
    | nil => rfl
    | cons y gap =>
        obtain ⟨rfl, -⟩ := List.cons.inj text
        exact absurd (isBlank_of_isWordChar part) (by simp [blanks c List.mem_cons_self])
  rw [List.nil_append] at text
  rcases List.append_eq_append_iff.mp text with ⟨t, rfl, behind⟩ | ⟨t, rfl, behind⟩
  · cases t with
    | nil => exact h.free (by simpa using there)
    | cons y t =>
        have parts : ∀ word ∈ statementWords, word.all isModuleChar = true := by decide
        have part := List.all_eq_true.mp (parts _ there) y (by simp)
        rw [ends y (by rw [behind]; rfl)] at part
        cases part
  · cases t with
    | nil => exact h.free (by simpa using there)
    | cons y t =>
        obtain ⟨rfl, -⟩ := List.cons.inj behind
        have part := h.parts b (by simp)
        rw [isModuleChar_of_isBlank blank] at part
        cases part

/-! ## Texts without another statement -/

/-- No line that begins within a text could begin a statement. -/
def Quiet : List Char → List Char → Prop
  | [], _ => True
  | x :: u, more => (x = '\n' → IsClosed (u ++ more)) ∧ Quiet u more

theorem quiet_append : Quiet (u ++ v) more ↔ Quiet u (v ++ more) ∧ Quiet v more := by
  induction u with
  | nil => simp [Quiet]
  | cons x u ih => simp [Quiet, ih, and_assoc]

theorem quiet_of_notMem (one_line : '\n' ∉ u) : Quiet u more := by
  induction u with
  | nil => trivial
  | cons x u ih =>
      rw [List.mem_cons, not_or] at one_line
      exact ⟨fun feed => absurd feed.symm one_line.1, ih one_line.2⟩

theorem Quiet.isClosed (quiet : Quiet (u ++ '\n' :: v) more) : IsClosed (v ++ more) :=
  (quiet_append.mp quiet).2.1 rfl

theorem isBlank_of_isSpace (space : isSpace x = true) : Text.isBlank x = true := by
  have all : ∀ x ∈ [' ', '\t', '\x0c'], Text.isBlank x = true :=
    List.all_iff_forall_prop.mp (by decide)
  exact all x (of_decide_eq_true space)

theorem IsSpaces.isBlanks (spaces : IsSpaces cs) : IsBlanks cs :=
  fun c there => isBlank_of_isSpace (spaces c there)

theorem IsSpaces.quiet (spaces : IsSpaces cs) : Quiet cs more :=
  quiet_of_notMem fun feed => absurd (spaces _ feed) (by decide)

theorem quiet_ending {ending : List Char} (ends : Text.IsLineEnd ending) (closed : IsClosed more) :
    Quiet ending more ∧ IsClosed (ending ++ more) := by
  refine ⟨?_, closed.append_blanks (Source.isBlanks_of_isLineEnd ends)⟩
  cases ends with
  | feed => exact ⟨fun _ => closed, trivial⟩
  | returnFeed => exact ⟨nofun, fun _ => closed, trivial⟩

theorem IsGap.quiet (h : IsGap enclosed gap) (closed : IsClosed more) :
    Quiet gap more ∧ IsClosed (gap ++ more) := by
  induction h with
  | nil => exact ⟨trivial, closed⟩
  | @space c gap space _ ih =>
      have blank : IsBlanks [c] := List.forall_mem_singleton.mpr (isBlank_of_isSpace space)
      exact ⟨⟨fun _ => ih.2, ih.1⟩, ih.2.append_blanks blank⟩
  | joined ends _ ih =>
      have line := quiet_ending ends ih.2
      refine ⟨⟨nofun, quiet_append.mpr ⟨line.1, ih.1⟩⟩, isClosed_cons (by decide) (by decide)⟩
  | ending _ ends _ ih =>
      have line := quiet_ending ends ih.2
      rw [List.append_assoc]
      exact ⟨quiet_append.mpr ⟨line.1, ih.1⟩, line.2⟩
  | comment _ one_line ends _ ih =>
      have line := quiet_ending ends ih.2
      refine ⟨⟨nofun, quiet_append.mpr ⟨quiet_of_notMem one_line, ?_⟩⟩,
        isClosed_cons (by decide) (by decide)⟩
      exact quiet_append.mpr ⟨line.1, ih.1⟩

theorem IsGap.endsWord (h : IsGap enclosed gap) (ends : EndsWord more) :
    EndsWord (gap ++ more) := by
  cases h with
  | nil => exact ends
  | space space _ => exact endsWord_cons (isModuleChar_of_isBlank (isBlank_of_isSpace space))
  | joined _ _ | comment _ _ _ _ => exact endsWord_cons (by decide)
  | ending _ line _ => cases line <;> exact endsWord_cons (by decide)

/-- A gap that is there ends a word, whatever follows. -/
theorem IsGap.endsWord_of_ne_nil (h : IsGap enclosed gap) (some_gap : gap ≠ []) (more : List Char) :
    EndsWord (gap ++ more) := by
  obtain ⟨x, gap, rfl⟩ := List.exists_cons_of_ne_nil some_gap
  have alone : EndsWord (x :: gap ++ []) := h.endsWord nofun
  rw [List.append_nil] at alone
  exact endsWord_cons (alone x rfl)

theorem IsWritten.quiet (h : IsWritten cs) : Quiet cs more :=
  quiet_of_notMem fun feed => absurd (h.parts _ feed) (by decide)

theorem isWritten_as : IsWritten "as".toList where
  first := ⟨'a', ['s'], by decide, by decide⟩
  parts := List.all_iff_forall_prop.mp (by decide)
  free := by decide

theorem IsAlias.endsWord (h : IsAlias enclosed cs) (ends : EndsWord more) :
    EndsWord (cs ++ more) := by
  cases h with
  | none => exact ends
  | named spaced some_gap _ _ _ =>
      rw [List.append_assoc]
      exact spaced.endsWord_of_ne_nil some_gap _

theorem IsSeparator.endsWord (h : IsSeparator enclosed cs) (more : List Char) :
    EndsWord (cs ++ more) := by
  obtain ⟨named, spaced, -⟩ := h
  rw [List.append_assoc, List.append_assoc]
  exact named.endsWord (spaced.endsWord (endsWord_cons (by decide)))

theorem IsEnding.endsWord (h : IsEnding enclosed cs) (ends : EndsWord more) :
    EndsWord (cs ++ more) := by
  cases h with
  | bare named => exact named.endsWord ends
  | gap named spaced =>
      rw [List.append_assoc]
      exact named.endsWord (spaced.endsWord ends)
  | comma separated => exact separated.endsWord more

theorem IsList.endsWord {isWord : List Char → Prop} {item : Item} {items : List Item}
    (h : IsList enclosed isWord (item :: items)) (ends : EndsWord more) :
    EndsWord (item.behind ++ (spell items ++ more)) := by
  cases h with
  | last _ ending => exact ending.endsWord ends
  | cons _ separated _ => exact separated.endsWord _

theorem IsAlias.quiet (h : IsAlias enclosed cs) (ends : EndsWord more) : Quiet cs more := by
  cases h with
  | none => trivial
  | @named gap gap' name spaced some_gap spaced' some_gap' named =>
      have name_closed : IsClosed (name ++ more) := named.isWritten.isClosed ends
      have as_closed : IsClosed ("as".toList ++ (gap' ++ (name ++ more))) :=
        isWritten_as.isClosed (spaced'.endsWord_of_ne_nil some_gap' _)
      refine quiet_append.mpr ⟨?_, quiet_append.mpr ⟨isWritten_as.quiet, ?_⟩⟩
      · simpa using (spaced.quiet as_closed).1
      · exact quiet_append.mpr ⟨(spaced'.quiet name_closed).1, named.isWritten.quiet⟩

theorem IsSeparator.quiet (h : IsSeparator enclosed cs) (closed : IsClosed more) :
    Quiet cs more := by
  obtain @⟨renamed, gap, gap', named, spaced, spaced'⟩ := h
  have comma : IsClosed (',' :: (gap' ++ more)) := isClosed_cons (by decide) (by decide)
  have ends : EndsWord (gap ++ ',' :: (gap' ++ more)) := spaced.endsWord (endsWord_cons (by decide))
  refine quiet_append.mpr ⟨quiet_append.mpr ⟨named.quiet ends, (spaced.quiet comma).1⟩, ?_⟩
  exact ⟨nofun, (spaced'.quiet closed).1⟩

theorem IsEnding.quiet (h : IsEnding enclosed cs) (ends : EndsWord more)
    (closed : enclosed = true → IsClosed more) : Quiet cs more := by
  cases h with
  | bare named => exact named.quiet ends
  | gap named spaced =>
      exact quiet_append.mpr ⟨named.quiet (spaced.endsWord ends), (spaced.quiet (closed rfl)).1⟩
  | comma separated => exact separated.quiet (closed rfl)

/-- Nothing begins within a list of names, nor with it. -/
theorem IsList.quiet {isWord : List Char → Prop} {items : List Item}
    (h : IsList enclosed isWord items) (written : ∀ cs, isWord cs → IsWritten cs)
    (ends : EndsWord more) (closed : enclosed = true → IsClosed more) :
    Quiet (spell items) more ∧ IsClosed (spell items ++ more) := by
  induction h with
  | last word ending =>
      rw [spell_cons, spell_nil, List.append_nil, List.append_assoc]
      refine ⟨quiet_append.mpr ⟨(written _ word).quiet, ending.quiet ends closed⟩, ?_⟩
      exact (written _ word).isClosed (ending.endsWord ends)
  | cons word separated _ ih =>
      rw [spell_cons, List.append_assoc, List.append_assoc]
      refine ⟨quiet_append.mpr ⟨(written _ word).quiet, quiet_append.mpr ⟨?_, ih.1⟩⟩, ?_⟩
      · exact separated.quiet ih.2
      · exact (written _ word).isClosed (separated.endsWord _)

/-! ## Statements and lines -/

theorem endsWord_blank (blanks : IsBlanks gap) (some_gap : gap ≠ []) (more : List Char) :
    EndsWord (gap ++ more) := by
  obtain ⟨x, gap, rfl⟩ := List.exists_cons_of_ne_nil some_gap
  exact endsWord_cons (isModuleChar_of_isBlank (blanks x List.mem_cons_self))

namespace Origin

variable {o : Origin} {items : List Item}

/-- No statement begins with the module. -/
theorem IsLegal.isClosed_module (h : o.IsLegal) (more : List Char) :
    IsClosed (o.module ++ (o.behindModule ++ more)) := by
  rw [module]
  cases dots : o.dots with
  | succ n => exact isClosed_cons (by decide) (by decide)
  | zero =>
      have some_module := h.some_module dots
      refine (h.dotted.resolve_left some_module).isWritten.isClosed ?_
      exact endsWord_blank h.behindModule.isBlanks (h.module_apart some_module) _

/-- The text in front of the names stands on lines that begin with it or with the module. -/
theorem IsLegal.quiet_front (h : o.IsLegal) : Quiet o.front more := by
  have module_quiet {more : List Char} : Quiet o.module more := by
    refine quiet_append.mpr ⟨quiet_of_notMem (by simp), ?_⟩
    rcases h.dotted with nothing | named
    · rw [nothing]
      trivial
    · exact named.isWritten.quiet
  have behind : Quiet (o.behindModule ++ "import".toList) more :=
    quiet_append.mpr ⟨h.behindModule.quiet, quiet_of_notMem (by decide)⟩
  refine quiet_append.mpr ⟨quiet_of_notMem (by decide), quiet_append.mpr ⟨?_, ?_⟩⟩
  · rw [List.append_assoc, List.append_assoc]
    exact (h.behindFrom.quiet (h.isClosed_module _)).1
  · exact quiet_append.mpr ⟨module_quiet, behind⟩

theorem Imports.quiet_body (h : o.Imports items) (ends : EndsWord more) :
    Quiet (o.body items) more ∧ IsClosed (o.body items ++ more) := by
  cases h with
  | names opening _ listed =>
      rw [body, opening]
      exact listed.quiet (fun _ => IsName.isWritten) ends nofun
  | all opening =>
      rw [body, opening]
      exact ⟨quiet_of_notMem (by decide), isClosed_cons (by decide) (by decide)⟩
  | @enclosed gap _ opening spaced listed =>
      have closing : IsClosed (')' :: more) := isClosed_cons (by decide) (by decide)
      obtain ⟨quiet, closed⟩ := listed.quiet (fun _ => IsName.isWritten)
        (endsWord_cons (by decide)) fun _ => closing
      rw [body, opening]
      refine ⟨⟨nofun, quiet_append.mpr ⟨?_, quiet_append.mpr ⟨quiet, nofun, trivial⟩⟩⟩,
        isClosed_cons (by decide) (by decide)⟩
      rw [List.append_assoc]
      exact (spaced.quiet closed).1

end Origin

theorem Statement.IsLegal.quiet {s : Statement} (h : s.IsLegal) (ends : EndsWord more) :
    Quiet s.text more := by
  cases h with
  | modules spaced _ listed =>
      obtain ⟨quiet, closed⟩ := listed.quiet (fun _ => IsModule.isWritten) ends nofun
      refine quiet_append.mpr ⟨quiet_of_notMem (by decide), quiet_append.mpr ⟨?_, quiet⟩⟩
      exact (spaced.quiet closed).1
  | names legal imports =>
      obtain ⟨quiet, closed⟩ := imports.quiet_body ends
      refine quiet_append.mpr ⟨legal.quiet_front, quiet_append.mpr ⟨?_, quiet⟩⟩
      exact (legal.behindImport.quiet closed).1

theorem IsLineRest.notMem_feed (h : IsLineRest cs) : '\n' ∉ cs := by
  induction h with
  | nil => exact List.not_mem_nil
  | blank _ other _ ih => simpa [Ne.symm other] using ih
  | semicolon _ ih => simpa using ih
  | comment one_line => simpa using one_line

end CommitSplit.Python
