import CommitSplit.Proofs.Imports.Declarations
import CommitSplit.Proofs.Surface.Piece
import CommitSplit.Surface.Rust.Reader

/-!
# Reading declarations of modules

Of Rust the declarations of modules in a header are read one after the other: each becomes an item,
and the rest of the text is read as if it stood alone.
-/

namespace CommitSplit.Rust

open Source (IsBlanks IsComment IsLineRest isSpace)

variable {cs cs' cs'' rest word : List Char} {ts ts' : List SourceToken} {c : Char}

/-! ## Tokens -/

/-- From a place in a text, some tokens are read up to another place. -/
def Lexes (cs : List Char) (ts : List SourceToken) (cs' : List Char) : Prop :=
  ∃ steps, steps + cs'.length ≤ cs.length ∧
    ∀ fuel, tokensFrom (fuel + steps) cs = ts ++ tokensFrom fuel cs'

namespace Lexes

theorem refl (cs : List Char) : Lexes cs [] cs :=
  ⟨0, by simp, fun _ => rfl⟩

theorem trans (h : Lexes cs ts cs') (h' : Lexes cs' ts' cs'') : Lexes cs (ts ++ ts') cs'' := by
  obtain ⟨steps, shorter, lexed⟩ := h
  obtain ⟨steps', shorter', lexed'⟩ := h'
  refine ⟨steps' + steps, by omega, fun fuel => ?_⟩
  rw [← Nat.add_assoc, lexed, lexed', List.append_assoc]

theorem blank (space : isSpace c = true) : Lexes (c :: cs) [] cs := by
  refine ⟨1, by simp; omega, fun fuel => ?_⟩
  rw [tokensFrom, if_pos space]
  rfl

theorem blanks (blanks : IsBlanks cs) : Lexes (cs ++ rest) [] rest := by
  induction cs with
  | nil => exact refl rest
  | cons c cs ih =>
      obtain ⟨here, blanks⟩ := List.forall_mem_cons.mp blanks
      exact (blank (by simp [isSpace, here])).trans (ih blanks)

/-- A comment reaches up to the line feed. -/
theorem comment (comment : IsComment cs) : Lexes (cs ++ rest) [] rest := by
  cases comment with
  | @line cs ending one_line ends =>
      have within : ∀ c ∈ cs, decide (c ≠ '\n') = true := by
        rintro c there
        refine decide_eq_true ?_
        rintro rfl
        exact Bool.noConfusion (one_line _ there)
      have behind : ('/' :: (cs ++ (ending ++ rest))).dropWhile (· ≠ '\n') = '\n' :: rest := by
        rw [List.dropWhile_cons_of_pos (by decide), List.dropWhile_append_of_pos within]
        cases ends <;> rfl
      have slashes : Lexes ('/' :: '/' :: (cs ++ (ending ++ rest))) [] ('\n' :: rest) := by
        refine ⟨1, ?_, fun fuel => ?_⟩
        · cases ends <;> simp <;> omega
        · rw [tokensFrom, if_neg (by decide), if_pos (by simp), behind]
          rfl
      have text : '/' :: '/' :: (cs ++ ending) ++ rest =
          '/' :: '/' :: (cs ++ (ending ++ rest)) := by simp
      rw [text]
      exact slashes.trans (blank (by decide))

/-- A sign that begins with neither a blank nor a slash. -/
theorem signed {sign : Sign} (plain : isSpace c = false) (other : c ≠ '/')
    (isSign : signAt c cs = (sign, cs')) (shorter : cs'.length ≤ cs.length) :
    Lexes (c :: cs) [⟨sign, ⟨c :: cs, cs'⟩⟩] cs' := by
  refine ⟨1, by simp; omega, fun fuel => ?_⟩
  rw [tokensFrom, if_neg (by simp [plain]), if_neg (by simp [other]), if_neg (by simp [other]),
    isSign]
  rfl

end Lexes

/-- A word ends in front of a text. -/
def Ends (rest : List Char) : Prop :=
  ∀ c ∈ rest.head?, Source.isWordPart c = false ∧ c ∉ ['\x22', '\x27', '#']

theorem isSpace_of_isWordPart (part : Source.isWordPart c = true) : isSpace c = false := by
  by_cases ascii : c.toNat < 128
  · exact Source.forall_ascii
      (fun c => Source.isWordPart c = true → isSpace c = false) (by decide) c ascii part
  · simpa [Source.isWordPart, ascii] using part

/-- A word in front of such a text begins no literal. -/
theorem literalBehind?_eq_none (ends : Ends rest) (word : String) :
    literalBehind? word rest = none := by
  cases rest with
  | nil => rfl
  | cons c rest =>
      obtain ⟨-, other⟩ := ends c rfl
      simp only [List.mem_cons, List.not_mem_nil, or_false, not_or] at other
      have hashes : (c :: rest).takeWhile (· = '#') = [] := by simp [other.2.2]
      rw [literalBehind?, hashes]
      simp only [List.length_nil, List.drop_zero]
      split
      · exact absurd (List.cons.inj ‹_›).1 other.1
      · exact absurd (List.cons.inj ‹_›).1 other.2.1
      · simp
      · rfl

theorem lexes_word (rest : List Char) (isWord : IsWord word) (ends : Ends rest) :
    ∃ e, Lexes (word ++ rest) [⟨.word (String.ofList word), e⟩] rest := by
  obtain ⟨c, letters, rfl, letter⟩ := isWord.begins
  have parts : ∀ x ∈ c :: letters, Source.isWordPart x = true := fun x there =>
    (isWord.parts x there).1
  obtain ⟨first, parts⟩ := List.forall_mem_cons.mp parts
  obtain ⟨taken, left⟩ := Source.span_append parts fun x first => (ends x first).1
  have other : c ≠ '/' := by
    rintro rfl
    exact Bool.noConfusion (first : false = true)
  rw [List.cons_append]
  refine ⟨_, Lexes.signed (isSpace_of_isWordPart first) other ?_ (by simp)⟩
  rw [signAt, if_pos (by simp [Source.isWordStart, first, letter]), taken, left]
  dsimp only
  rw [literalBehind?_eq_none ends]
  rfl

/-! ## Declarations -/

/-- Some pieces are read as some declarations, whatever follows. -/
def Declare (ps : List Piece) (ds : List Declaration) : Prop :=
  ∃ steps ≤ ps.length, ∀ fuel more,
    declarationsFrom (fuel + steps) (ps ++ more) = ds ++ declarationsFrom fuel more

variable {ps ps' : List Piece} {ds ds' : List Declaration}

theorem Declare.nil : Declare [] [] :=
  ⟨0, Nat.le_refl _, fun _ _ => rfl⟩

theorem Declare.append (h : Declare ps ds) (h' : Declare ps' ds') :
    Declare (ps ++ ps') (ds ++ ds') := by
  obtain ⟨steps, few, read⟩ := h
  obtain ⟨steps', few', read'⟩ := h'
  refine ⟨steps' + steps, by rw [List.length_append]; omega, fun fuel more => ?_⟩
  rw [← Nat.add_assoc, List.append_assoc, read, read', List.append_assoc]

theorem declare_semicolon (e : Extent) : Declare [.single (.mark ";") e] [] :=
  ⟨1, Nat.le_refl _, fun _ _ => by
    simp [declarationsFrom, pastAttribute?, Piece.isMark]⟩

/-- The pieces of a visibility. -/
inductive IsVisibility : List Piece → Prop
  | hidden : IsVisibility []
  | everywhere (e : Extent) : IsVisibility [.single (.word "pub") e]
  | within (e : Extent) (inside : List Piece) (e' : Extent) :
      IsVisibility [.single (.word "pub") e, .group .paren inside e']

/-- The name of a module in another file. -/
def Declaration.child? (d : Declaration) : Option String :=
  match d.item with
  | .module name false => some name
  | _ => none

theorem readItem_module (name : String) (e e' e'' : Extent) (more : List Piece) :
    readItem (.single (.word "mod") e :: .single (.word name) e' ::
      .single (.mark ";") e'' :: more) = (.module name false, more) := by
  simp [readItem, Piece.word?, splitBody, spanOutside, Piece.inside?, Piece.isMark, anglesAfter,
    leadingName]

theorem declare_module (front : IsVisibility ps) (name : String) (e e' e'' : Extent) :
    ∃ isPublic, Declare
      (ps ++ [.single (.word "mod") e, .single (.word name) e', .single (.mark ";") e''])
      [⟨isPublic, .module name false⟩] := by
  cases front with
  | hidden =>
      refine ⟨false, 1, by simp, fun fuel more => ?_⟩
      simp [declarationsFrom, pastAttribute?, Piece.isMark, readVisibility, Piece.isWord,
        Piece.word?, readItem_module]
  | everywhere e =>
      refine ⟨true, 1, by simp, fun fuel more => ?_⟩
      simp [declarationsFrom, pastAttribute?, Piece.isMark, readVisibility, Piece.isWord,
        Piece.word?, Piece.inside?, readItem_module]
  | within e inside e' =>
      refine ⟨false, 1, by simp, fun fuel more => ?_⟩
      simp [declarationsFrom, pastAttribute?, Piece.isMark, readVisibility, Piece.isWord,
        Piece.word?, Piece.inside?, readItem_module]

/-! ## Headers -/

/-- The modules in other files that a source text declares. -/
def declaredModules (content : List Char) : List String :=
  (declarations (pieces content)).filterMap Declaration.child?

/-- Some text is read that declares some modules. -/
def Reads (cs : List Char) (modules : List String) (cs' : List Char) : Prop :=
  ∃ ts ps ds, Lexes cs ts cs' ∧ Piece.Become ts ps ∧ Declare ps ds ∧
    ds.filterMap Declaration.child? = modules

variable {modules modules' : List String}

theorem Reads.trans (h : Reads cs modules cs') (h' : Reads cs' modules' cs'') :
    Reads cs (modules ++ modules') cs'' := by
  obtain ⟨ts, ps, ds, lexed, becomes, declares, rfl⟩ := h
  obtain ⟨ts', ps', ds', lexed', becomes', declares', rfl⟩ := h'
  exact ⟨_, _, _, lexed.trans lexed', becomes.append becomes', declares.append declares',
    List.filterMap_append⟩

theorem Reads.of_lexes_nil (h : Lexes cs [] cs') : Reads cs [] cs' :=
  ⟨[], [], [], h, .nil, .nil, rfl⟩

theorem lexes_semicolon (rest : List Char) :
    Lexes (';' :: rest) [⟨.mark ";", ⟨';' :: rest, rest⟩⟩] rest :=
  .signed (by decide) (by decide) rfl (Nat.le_refl _)

theorem reads_semicolon (rest : List Char) : Reads (';' :: rest) [] rest :=
  ⟨_, _, _, lexes_semicolon rest, .single nofun nofun, declare_semicolon _, rfl⟩

theorem reads_lineRest (behind : IsLineRest cs) : Reads (cs ++ rest) [] rest := by
  induction behind with
  | feed => exact .of_lexes_nil (.blank (by decide))
  | comment comment => exact .of_lexes_nil (.comment comment)
  | blank blank _ _ ih =>
      exact (Reads.of_lexes_nil (.blank (by simp [isSpace, blank]))).trans ih
  | semicolon _ ih => exact (reads_semicolon _).trans ih

/-- A blank is the end of every word. -/
theorem ends_of_isBlanks {gap : List Char} (blanks : IsBlanks gap) (here : gap = [] → Ends rest) :
    Ends (gap ++ rest) := by
  cases gap with
  | nil => exact here rfl
  | cons b gap =>
      intro c first
      obtain rfl : b = c := Option.some.inj first
      have blank := blanks b List.mem_cons_self
      have apart : ∀ y ∈ ['\x22', '\x27', '#'], Text.isBlank y = false :=
        List.all_iff_forall_prop.mp rfl
      refine ⟨Bool.eq_false_iff.mpr fun part => ?_, fun there => ?_⟩
      · have space : isSpace b = true := by simp [isSpace, blank]
        exact Bool.noConfusion (space.symm.trans (isSpace_of_isWordPart part))
      · exact Bool.noConfusion (blank.symm.trans (apart b there))

theorem lexes_visibility (rest : List Char) {visibility : List Char}
    (front : Visibility IsWord visibility) :
    ∃ ts ps, Lexes (visibility ++ rest) ts rest ∧ Piece.Become ts ps ∧ IsVisibility ps := by
  have pub : IsWord "pub".toList := by decide
  cases front with
  | hidden => exact ⟨[], [], .refl rest, .nil, .hidden⟩
  | @everywhere gap blanks some_blank =>
      obtain ⟨e, lexed⟩ := lexes_word (gap ++ rest) pub
        (ends_of_isBlanks blanks fun nothing => absurd nothing some_blank)
      rw [List.append_assoc]
      exact ⟨_, _, lexed.trans (.blanks blanks), .single nofun nofun, .everywhere e⟩
  | @within word gap isWord blanks some_blank =>
      obtain ⟨e, lexed⟩ := lexes_word ('(' :: (word ++ ')' :: (gap ++ rest))) pub
        (by rintro c ⟨⟩; decide)
      obtain ⟨e', inside⟩ := lexes_word (')' :: (gap ++ rest)) isWord
        (by rintro c ⟨⟩; decide)
      have opening : Lexes ('(' :: (word ++ ')' :: (gap ++ rest))) _
          (word ++ ')' :: (gap ++ rest)) :=
        .signed (by decide) (by decide) rfl (Nat.le_refl _)
      have closing : Lexes (')' :: (gap ++ rest)) _ (gap ++ rest) :=
        .signed (by decide) (by decide) rfl (Nat.le_refl _)
      have text : "pub".toList ++ ('(' :: (word ++ ')' :: gap)) ++ rest =
          "pub".toList ++ ('(' :: (word ++ ')' :: (gap ++ rest))) := by simp
      rw [text]
      exact ⟨_, _, lexed.trans (opening.trans (inside.trans (closing.trans (.blanks blanks)))),
        .append (.word _ e) (.group .paren _ _ (.word _ e')), .within e _ _⟩

/-- A declaration is read as the module that it declares. -/
theorem reads_declaration {gap visibility gap₁ name gap₂ : List Char} (blanks : IsBlanks gap)
    (front : Visibility IsWord visibility) (blanks₁ : IsBlanks gap₁) (some₁ : gap₁ ≠ [])
    (isWord : IsWord name) (blanks₂ : IsBlanks gap₂) :
    Reads (gap ++ (visibility ++ ("mod".toList ++ (gap₁ ++ (name ++ (gap₂ ++ ';' :: rest))))))
      [String.ofList name] rest := by
  have mod : IsWord "mod".toList := by decide
  obtain ⟨ts, ps, shown, become, isVisibility⟩ := lexes_visibility
    ("mod".toList ++ (gap₁ ++ (name ++ (gap₂ ++ ';' :: rest)))) front
  obtain ⟨e, keyword⟩ := lexes_word (gap₁ ++ (name ++ (gap₂ ++ ';' :: rest))) mod
    (ends_of_isBlanks blanks₁ fun nothing => absurd nothing some₁)
  obtain ⟨e', named⟩ := lexes_word (gap₂ ++ ';' :: rest) isWord
    (ends_of_isBlanks blanks₂ fun _ => by rintro c ⟨⟩; decide)
  obtain ⟨isPublic, declare⟩ := declare_module isVisibility (String.ofList name) e e'
    ⟨';' :: rest, rest⟩
  refine (Reads.of_lexes_nil (.blanks blanks)).trans ⟨_, _, _, shown.trans (keyword.trans
    ((Lexes.blanks blanks₁).trans (named.trans ((Lexes.blanks blanks₂).trans
      (lexes_semicolon rest))))), ?_, declare, rfl⟩
  exact become.append (.append (.word _ e) (.append (.word _ e') (.mark _ _)))

/-- A header is read declaration by declaration. -/
theorem reads_header (rest : List Char) {names : List (List Char)} {header : List Char}
    (h : Header names header) :
    Reads (header ++ rest) (names.map String.ofList) rest := by
  induction h with
  | nil => exact .of_lexes_nil (.refl rest)
  | comment blanks comment _ ih =>
      rw [List.append_assoc, List.append_assoc]
      exact (Reads.of_lexes_nil (.blanks blanks)).trans
        ((Reads.of_lexes_nil (.comment comment)).trans ih)
  | @declaration names gap visibility gap₁ name gap₂ behind header blanks front blanks₁ some₁ word
      blanks₂ line_rest _ ih =>
      have line := (reads_declaration blanks front blanks₁ some₁ word blanks₂).trans
        ((reads_lineRest line_rest).trans ih)
      simpa using line

theorem eq_nil_of_header_nil {names : List (List Char)} (h : Header names []) : names = [] := by
  generalize nothing : [] = header at h
  cases h with
  | nil => rfl
  | comment _ comment _ => cases comment; simp at nothing
  | declaration _ _ _ _ _ _ _ _ => simp at nothing

/-- The first line of a header is read as it stands. -/
theorem dropInterpreterLine_header {names : List (List Char)} {header : List Char}
    (h : Header names header) (some_char : header ≠ []) :
    dropInterpreterLine (Source.dropMark (header ++ rest)) = header ++ rest := by
  have plain {c : Char} {gap : List Char} (blanks : IsBlanks (c :: gap)) :
      c ≠ '#' ∧ c ≠ '\ufeff' := by
    have apart : ∀ y ∈ ['#', '\ufeff'], Text.isBlank y = false := List.all_iff_forall_prop.mp rfl
    constructor <;> rintro rfl <;> exact Bool.noConfusion
      ((blanks _ List.mem_cons_self).symm.trans (apart _ (by simp)))
  obtain ⟨c, cs, begins, other, unmarked⟩ : ∃ c cs, header = c :: cs ∧ c ≠ '#' ∧ c ≠ '\ufeff' := by
    cases h with
    | nil => exact absurd rfl some_char
    | @comment _ gap _ _ blanks comment _ =>
        cases gap with
        | nil =>
            cases comment
            exact ⟨_, _, rfl, by decide⟩
        | cons c gap => exact ⟨c, _, rfl, plain blanks⟩
    | @declaration _ gap _ _ _ _ _ _ blanks front _ _ _ _ _ _ =>
        cases gap with
        | nil =>
            cases front with
            | hidden => exact ⟨_, _, rfl, by decide⟩
            | everywhere _ _ | within _ _ _ => exact ⟨_, _, rfl, by decide⟩
        | cons c gap => exact ⟨c, _, rfl, plain blanks⟩
  have unchanged : Source.dropMark (c :: (cs ++ rest)) = c :: (cs ++ rest) := by
    rw [Source.dropMark]
    exact fun _ same => unmarked (List.cons.inj same).1
  rw [begins, List.cons_append, unchanged, dropInterpreterLine]
  exact fun _ same => other (List.cons.inj same).1

/-- A header declares the modules that are listed with it, in front of what the rest of a text
declares. -/
theorem exists_declaredModules_eq {names : List (List Char)} {header : List Char}
    (h : Header names header) (rest : List Char) :
    ∃ more, declaredModules (header ++ rest) = names.map String.ofList ++ more ∧
      (rest = [] → more = []) := by
  rcases eq_or_ne header [] with rfl | some_char
  · obtain rfl := eq_nil_of_header_nil h
    exact ⟨_, rfl, fun nothing => by subst nothing; rfl⟩
  · obtain ⟨ts, ps, ds, ⟨steps, few, lexed⟩, become, ⟨steps', few', declares⟩, same⟩ :=
      reads_header rest h
    obtain ⟨fuel, enough⟩ := Nat.exists_eq_add_of_le' (few.trans' (Nat.le_add_right steps _))
    have put : pieces (header ++ rest) = ps ++ Piece.ofTokens (tokensFrom (fuel + 1) rest) := by
      rw [pieces, dropInterpreterLine_header h some_char, enough, Nat.add_right_comm, lexed,
        become.ofTokens_append]
    obtain ⟨fuel', enough'⟩ := Nat.exists_eq_add_of_le' few'
    rw [declaredModules, put, declarations, List.length_append, enough', Nat.add_right_comm fuel',
      Nat.add_right_comm _ steps', declares, List.filterMap_append, same]
    refine ⟨_, rfl, ?_⟩
    rintro rfl
    rfl

end CommitSplit.Rust
