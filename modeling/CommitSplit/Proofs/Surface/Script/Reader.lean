import CommitSplit.Proofs.Surface.Script.Lexer
import CommitSplit.Proofs.Text.Blank
import CommitSplit.Surface.Script.Reader

/-!
# Reading a header

The statements of a header are read one after the other: each gives the module that it names, and
leaves what is behind it to the next one.
-/

namespace CommitSplit.Script

open Source (IsBlanks IsComment IsLineRest)

variable {dialect : Dialect} {depth : Nat} {atoms : List Atom} {t : Token} {ts more : List Token}
  {written : String}

/-- The modules that the import and export statements of a script name, in order. -/
def statedModules (dialect : Dialect) (content : List Char) : List String :=
  (readStatements dialect 0 (tokens dialect content)).1

/-- The tokens of words and marks. -/
def ShowAll (atoms : List Atom) (ts : List Token) : Prop :=
  List.Forall₂ (fun a t => Shows a t.symbol) atoms ts

theorem Shows.depthAfter_eq {a : Atom} (h : Shows a t.symbol) :
    t.depthAfter depth = a.depthAfter depth := by
  rw [Token.depthAfter]
  generalize t.symbol = symbol at h
  cases h <;> rfl

/-! ## Skipping -/

/-- A token that begins no statement is passed. -/
theorem readStatements_cons (other : depth = 0 → ∀ text, t.symbol = .word text →
      text ≠ "import" ∧ text ≠ "export") :
    (readStatements dialect depth (t :: more)).1 =
      (readStatements dialect (t.depthAfter depth) more).1 := by
  rw [readStatements]
  have passed : ∀ keyword, keyword = "import" ∨ keyword = "export" →
      (depth = 0 && t.keyword? = some keyword) = false := by
    intro keyword isKeyword
    rw [Bool.and_eq_false_imp, decide_eq_true_iff]
    refine fun outside => decide_eq_false fun same => ?_
    rw [Token.keyword?] at same
    split at same
    · have unlike := other outside _ ‹_›
      split at same
      · cases same
      · rcases isKeyword with rfl | rfl
        · exact unlike.1 (Option.some.inj same)
        · exact unlike.2 (Option.some.inj same)
    · cases same
  obtain ⟨imports, exports⟩ := readStatements dialect (t.depthAfter depth) more
  dsimp only
  rw [if_neg (by simp [passed]), if_neg (by simp [passed])]

/-- Nothing in a clause begins a statement. -/
theorem readStatements_clause (shows : ShowAll atoms ts) (clause : Clause depth atoms) :
    (readStatements dialect depth (ts ++ more)).1 = (readStatements dialect 0 more).1 := by
  induction shows generalizing depth with
  | nil =>
      obtain rfl : depth = 0 := clause
      rfl
  | @cons a t atoms ts shows others ih =>
      rw [List.cons_append]
      have inner : t.depthAfter depth = a.depthAfter depth := shows.depthAfter_eq
      have other : depth = 0 → ∀ text, t.symbol = .word text →
          text ≠ "import" ∧ text ≠ "export" := by
        intro outside text same
        rw [same] at shows
        cases shows
        exact clause.1 outside
      rw [readStatements_cons other, inner]
      exact ih clause.tail

/-! ## Statements -/

/-- Behind `from` stands the name of the module, where it is the last word of a clause. -/
theorem fromClause_clause {found : String} {str : Token} (shows : ShowAll atoms ts)
    (clause : Clause depth atoms) (isString : str.symbol = .string written)
    (named : fromClause (t :: (ts ++ str :: more)) = some found) :
    ts = [] ∧ t.symbol = .word "from" ∧ found = written := by
  rw [fromClause.eq_def] at named
  split at named
  · rename_i found' _ _ _ _ _ _ _ same
    obtain ⟨rfl, rest⟩ := List.cons.inj same
    obtain rfl := Option.some.inj named
    cases shows with
    | nil =>
        obtain ⟨rfl, -⟩ := List.cons.inj rest
        exact ⟨rfl, rfl, Symbol.string.inj isString⟩
    | cons shows _ =>
        obtain ⟨rfl, -⟩ := List.cons.inj rest
        cases shows
        exact clause.elim
  · cases named

/-- The name of a module is found behind a clause. -/
theorem importSource_clause (shows : ShowAll atoms ts) (clause : Clause depth atoms)
    (isString : t.symbol = .string written) :
    importSource depth (ts ++ t :: more) = some written := by
  induction shows generalizing depth with
  | nil =>
      obtain rfl : depth = 0 := clause
      obtain ⟨symbol, position, onNewLine, afterComment⟩ := t
      obtain rfl : symbol = .string written := isString
      rfl
  | @cons a t' atoms ts shows others ih =>
      rw [List.cons_append, importSource]
      cases named : fromClause (t' :: (ts ++ t :: more)) with
      | some found =>
          obtain ⟨rfl, isFrom, rfl⟩ := fromClause_clause others clause.tail isString named
          obtain rfl : atoms = [] := List.forall₂_nil_right_iff.mp others
          rw [isFrom] at shows
          cases shows
          obtain rfl : depth = 0 := clause.2
          rfl
      | none =>
          have rest := ih clause.tail
          rw [← shows.depthAfter_eq] at rest
          obtain ⟨symbol, position, onNewLine, afterComment⟩ := t'
          cases shows with
          | name mark text => exact clause.elim
          | star | comma => simpa [Token.depthAfter] using rest
          | word _ | opening _ | closing _ => exact rest

/-- The name of a module behind `from`. -/
theorem fromClause_eq {str : Token} (isFrom : t.symbol = .word "from")
    (isString : str.symbol = .string written) :
    fromClause (t :: str :: more) = some written := by
  obtain ⟨symbol, position, onNewLine, afterComment⟩ := t
  obtain ⟨symbol', position', onNewLine', afterComment'⟩ := str
  obtain rfl : symbol = .word "from" := isFrom
  obtain rfl : symbol' = .string written := isString
  rfl

/-- A list of names ends at the bracket that closes it. -/
theorem spanFlat_listed {closing : Token} {kind : Bracket} (listed : ∀ a ∈ atoms, a.isListed = true)
    (shows : ShowAll atoms ts) (closes : closing.symbol = .closing kind) :
    spanFlat (fun _ => false) 0 (ts ++ closing :: more) = (ts, closing :: more) := by
  induction shows with
  | nil => simp [spanFlat, closes]
  | @cons a t atoms ts shows others ih =>
      obtain ⟨first, others_listed⟩ := List.forall_mem_cons.mp listed
      have rest := ih others_listed
      obtain ⟨symbol, position, onNewLine, afterComment⟩ := t
      rw [List.cons_append, spanFlat]
      cases shows with
      | word _ | comma => simp [Token.depthAfter, rest]
      | name _ _ | star | opening _ | closing _ => cases first

theorem ShowAll.of_append {front back : List Atom} (h : ShowAll (front ++ back) ts) :
    ∃ us vs, ts = us ++ vs ∧ ShowAll front us ∧ ShowAll back vs := by
  induction front generalizing ts with
  | nil => exact ⟨[], ts, rfl, .nil, h⟩
  | cons a front ih =>
      obtain ⟨t, ts, shows, others, rfl⟩ := List.forall₂_cons_left_iff.mp h
      obtain ⟨us, vs, rfl, shown, behind⟩ := ih others
      exact ⟨t :: us, vs, rfl, .cons shows shown, behind⟩

/-- The word `type` changes nothing. -/
theorem readExport_typing {typed : Bool} {types : List Token} {a : Atom}
    (typing : ShowAll (Script.typing typed) types) (shows : ShowAll (a :: atoms) ts)
    (begins : a = .star ∨ a = .opening) :
    readExport dialect (types ++ (ts ++ more)) = readExport dialect (ts ++ more) := by
  cases typed with
  | false =>
      cases typing
      rfl
  | true =>
      obtain ⟨type, types, isType, others, rfl⟩ := List.forall₂_cons_left_iff.mp typing
      cases others
      obtain ⟨first, ts, isFirst, -, rfl⟩ := List.forall₂_cons_left_iff.mp shows
      obtain ⟨symbol, position, onNewLine, afterComment⟩ := type
      obtain ⟨symbol', position', onNewLine', afterComment'⟩ := first
      cases isType
      rcases begins with rfl | rfl <;> cases isFirst <;> rfl

theorem readExport_everything (shows : ShowAll [.star, .word "from"] ts)
    (isString : t.symbol = .string written) :
    (readExport dialect (ts ++ t :: more)).source = some written := by
  obtain ⟨star, _, isStar, shows₁, rfl⟩ := List.forall₂_cons_left_iff.mp shows
  obtain ⟨last, _, isFrom, nothing, rfl⟩ := List.forall₂_cons_left_iff.mp shows₁
  cases nothing
  obtain ⟨symbol, position, onNewLine, afterComment⟩ := star
  obtain ⟨symbol', position', onNewLine', afterComment'⟩ := last
  cases isStar
  cases isFrom
  exact fromClause_eq rfl isString

theorem readExport_renamed {text : String}
    (shows : ShowAll [.star, .word "as", .word text, .word "from"] ts)
    (isString : t.symbol = .string written) :
    (readExport dialect (ts ++ t :: more)).source = some written := by
  obtain ⟨star, _, isStar, shows₁, rfl⟩ := List.forall₂_cons_left_iff.mp shows
  obtain ⟨as, _, isAs, shows₂, rfl⟩ := List.forall₂_cons_left_iff.mp shows₁
  obtain ⟨_, _, -, shows₃, rfl⟩ := List.forall₂_cons_left_iff.mp shows₂
  obtain ⟨last, _, isFrom, nothing, rfl⟩ := List.forall₂_cons_left_iff.mp shows₃
  cases nothing
  obtain ⟨symbol, position, onNewLine, afterComment⟩ := star
  obtain ⟨symbol', position', onNewLine', afterComment'⟩ := as
  generalize lastSymbol : last.symbol = symbol'' at isFrom
  cases isStar
  cases isAs
  cases isFrom
  exact fromClause_eq lastSymbol isString

theorem readExport_listed (listed : ∀ a ∈ atoms, a.isListed = true)
    (shows : ShowAll (.opening :: (atoms ++ [.closing, .word "from"])) ts)
    (isString : t.symbol = .string written) :
    (readExport dialect (ts ++ t :: more)).source = some written := by
  obtain ⟨opening, _, isOpening, shows₁, rfl⟩ := List.forall₂_cons_left_iff.mp shows
  obtain ⟨body, _, rfl, shown, shows₂⟩ := ShowAll.of_append shows₁
  obtain ⟨closing, _, isClosing, shows₃, rfl⟩ := List.forall₂_cons_left_iff.mp shows₂
  obtain ⟨last, _, isFrom, nothing, rfl⟩ := List.forall₂_cons_left_iff.mp shows₃
  cases nothing
  obtain ⟨symbol, position, onNewLine, afterComment⟩ := opening
  generalize closingSymbol : closing.symbol = symbol' at isClosing
  generalize lastSymbol : last.symbol = symbol'' at isFrom
  cases isOpening with
  | @opening kind _ =>
      cases isClosing
      cases isFrom
      have list : (readExport dialect (⟨.opening kind, position, onNewLine, afterComment⟩ ::
          (body ++ ([closing, last] ++ t :: more)))).source =
          fromClause (nameList (body ++ ([closing, last] ++ t :: more))).2 := rfl
      rw [List.cons_append, List.append_assoc, list, nameList, List.cons_append,
        spanFlat_listed listed shown closingSymbol]
      exact fromClause_eq lastSymbol isString

/-- An export from a module gives the name of the module. -/
theorem readExport_source {tail : List Atom} (front : IsReexport (.word "export" :: tail))
    (shows : ShowAll tail ts) (isString : t.symbol = .string written) :
    (readExport dialect (ts ++ t :: more)).source = some written := by
  generalize atoms_eq : Atom.word "export" :: tail = atoms at front
  cases front with
  | everything typed =>
      obtain rfl := (List.cons.inj atoms_eq).2
      obtain ⟨types, exported, rfl, typing, shows⟩ := shows.of_append
      rw [List.append_assoc, readExport_typing typing shows (.inl rfl)]
      exact readExport_everything shows isString
  | renamed typed _ _ _ =>
      obtain rfl := (List.cons.inj atoms_eq).2
      obtain ⟨types, exported, rfl, typing, shows⟩ := shows.of_append
      rw [List.append_assoc, readExport_typing typing shows (.inl rfl)]
      exact readExport_renamed shows isString
  | listed typed listed =>
      obtain rfl := (List.cons.inj atoms_eq).2
      obtain ⟨types, exported, rfl, typing, shows⟩ := shows.of_append
      rw [List.append_assoc, readExport_typing typing shows (.inr rfl)]
      exact readExport_listed listed shows isString

/-- An import statement does not call, nor does it ask for what it is in. -/
theorem readStatements_import (isKeyword : t.keyword? = some "import")
    (begins : ∀ next ∈ more.head?, next.symbol ≠ .opening .paren ∧ next.symbol ≠ .mark ".") :
    (readStatements dialect 0 (t :: more)).1 =
      (importSource 0 more).toList.map unquote ++
        (readStatements dialect (t.depthAfter 0) more).1 := by
  rw [readStatements]
  obtain ⟨imports, exports⟩ := readStatements dialect (t.depthAfter 0) more
  dsimp only
  rw [if_pos (by simp [isKeyword])]
  cases more with
  | nil => rfl
  | cons next more =>
      obtain ⟨other, other'⟩ := begins next rfl
      rw [List.head?_cons, Option.map_some]
      split
      · exact absurd (Option.some.inj ‹_›) other
      · exact absurd (Option.some.inj ‹_›) other'
      · rfl

theorem readStatements_export (isKeyword : t.keyword? = some "export") :
    (readStatements dialect 0 (t :: more)).1 =
      (readExport dialect more).source.toList.map unquote ++
        (readStatements dialect (t.depthAfter 0) more).1 := by
  rw [readStatements]
  obtain ⟨imports, exports⟩ := readStatements dialect (t.depthAfter 0) more
  dsimp only
  rw [if_neg (by simp [isKeyword]), if_pos (by simp [isKeyword])]

/-- A statement gives the name of its module and leaves what is behind. -/
theorem readStatements_statement {keyword : Token} {tail : List Atom} {name : String}
    (front : IsImport (.word name :: tail) ∨ IsReexport (.word name :: tail))
    (isKeyword : keyword.symbol = .word name) (free : keyword.position ≠ .member)
    (shows : ShowAll tail ts) (isString : t.symbol = .string written) :
    (readStatements dialect 0 (keyword :: (ts ++ t :: more))).1 =
      unquote written :: (readStatements dialect 0 more).1 := by
  have isWord : keyword.keyword? = some name := by
    rw [Token.keyword?, isKeyword]
    exact if_neg free
  have flat : keyword.depthAfter 0 = 0 := by rw [Token.depthAfter, isKeyword]
  have behind (clause : Clause 0 tail) : (readStatements dialect 0 (ts ++ t :: more)).1 =
      (readStatements dialect 0 more).1 := by
    rw [readStatements_clause shows clause, readStatements_cons (by simp [isString]),
      Token.depthAfter, isString]
  rcases front with front | front
  · obtain ⟨_, same, clause⟩ := front.exists_clause
    obtain ⟨isImport, rfl⟩ := List.cons.inj same
    obtain rfl := Atom.word.inj isImport
    have begins : ∀ next ∈ (ts ++ t :: more).head?,
        next.symbol ≠ .opening .paren ∧ next.symbol ≠ .mark "." := by
      intro next first
      cases shows with
      | nil =>
          obtain rfl := Option.some.inj first
          simp [isString]
      | @cons _ t' _ _ shows _ =>
          obtain rfl : t' = next := Option.some.inj first
          generalize t'.symbol = symbol at shows
          cases shows with
          | opening other => exact ⟨fun same => other (Symbol.opening.inj same), nofun⟩
          | star | comma => decide
          | word _ | name _ _ | closing _ => exact ⟨nofun, nofun⟩
    rw [readStatements_import isWord begins, importSource_clause shows clause isString, flat,
      behind clause]
    rfl
  · obtain ⟨_, same, clause⟩ := front.exists_clause
    obtain ⟨isExport, rfl⟩ := List.cons.inj same
    obtain rfl := Atom.word.inj isExport
    rw [readStatements_export isWord, readExport_source front shows isString, flat, behind clause]
    rfl

theorem unquote_name {mark : Char} {name : List Char} (fine : (Atom.name mark name).Fine) :
    unquote (String.ofList (mark :: (name ++ [mark]))) = String.ofList name := by
  obtain ⟨isMark, some_char, plain⟩ := fine
  have quotes : isQuote mark = true :=
    List.all_eq_true.mp (rfl : Specifier.quotes.toList.all isQuote = true) mark isMark
  have unquoted : ∀ x ∈ name, isQuote x = false := fun x there => (plain x there).1
  have front : (mark :: (name ++ [mark])).dropWhile isQuote = name ++ [mark] := by
    obtain ⟨x, name, rfl⟩ := List.exists_cons_of_ne_nil some_char
    simp [quotes, unquoted x List.mem_cons_self]
  rw [unquote, String.toList_ofList, front, Text.dropEndWhile, List.reverse_append,
    List.reverse_singleton, List.singleton_append, List.dropWhile_cons_of_pos quotes,
    ← Text.dropEndWhile, Text.dropEndWhile_of_forall unquoted]

/-! ## Headers -/

variable {s : Lexer} {cs rest : List Char}

/-- Between statements. -/
structure Between (s : Lexer) : Prop where
  outside : InBrackets s 0
  free : s.position ≠ .member

theorem Between.of_alike {s' : Lexer} (h : Between s) (alike : s.Alike s') : Between s' where
  outside := h.outside.of_alike alike
  free := alike.position ▸ h.free

/-- Some tokens are read of which the statements name some modules. -/
def Reads (dialect : Dialect) (s : Lexer) (cs : List Char) (modules : List String) (s' : Lexer)
    (cs' : List Char) : Prop :=
  ∃ ts, Lexes dialect s cs ts s' cs' ∧ ∀ more,
    (readStatements dialect 0 (ts ++ more)).1 = modules ++ (readStatements dialect 0 more).1

namespace Reads

theorem trans {s' s'' : Lexer} {cs' cs'' : List Char} {modules modules' : List String}
    (h : Reads dialect s cs modules s' cs') (h' : Reads dialect s' cs' modules' s'' cs'') :
    Reads dialect s cs (modules ++ modules') s'' cs'' := by
  obtain ⟨ts, lexed, read⟩ := h
  obtain ⟨ts', lexed', read'⟩ := h'
  exact ⟨ts ++ ts', lexed.trans lexed', fun more => by
    rw [List.append_assoc, read, read', List.append_assoc]⟩

theorem of_lexes_nil {s' : Lexer} {cs' : List Char} (h : Lexes dialect s cs [] s' cs') :
    Reads dialect s cs [] s' cs' :=
  ⟨[], h, fun _ => rfl⟩

end Reads

variable (dialect rest)

theorem reads_blanks (between : Between s) (blanks : IsBlanks cs) :
    ∃ s', Reads dialect s (cs ++ rest) [] s' rest ∧ Between s' := by
  obtain ⟨s', lexed, alike⟩ := lexes_blanks dialect rest between.outside blanks
  exact ⟨s', .of_lexes_nil lexed, between.of_alike alike⟩

theorem reads_comment (between : Between s) (comment : IsComment cs) :
    ∃ s', Reads dialect s (cs ++ rest) [] s' rest ∧ Between s' := by
  obtain ⟨s', lexed, alike⟩ := lexes_comment dialect rest between.outside comment
  exact ⟨s', .of_lexes_nil lexed, between.of_alike alike⟩

theorem reads_lineRest (between : Between s) (behind : IsLineRest cs) :
    ∃ s', Reads dialect s (cs ++ rest) [] s' rest ∧ Between s' := by
  induction behind generalizing s with
  | feed => exact reads_blanks dialect rest between (List.forall_mem_singleton.mpr rfl)
  | comment comment => exact reads_comment dialect rest between comment
  | @blank c _ blank _ _ ih =>
      obtain ⟨s₁, first, between₁⟩ := reads_blanks dialect (_ ++ rest) between
        (List.forall_mem_singleton.mpr blank)
      obtain ⟨s₂, others, between₂⟩ := ih between₁
      exact ⟨s₂, first.trans others, between₂⟩
  | @semicolon cs _ ih =>
      obtain ⟨s₁, lexed, same, position⟩ := lexes_semicolon dialect (cs ++ rest) between.outside
      have between₁ : Between s₁ := ⟨between.outside.of_frames_eq same, by rw [position]; decide⟩
      obtain ⟨s₂, others, between₂⟩ := ih between₁
      have first : Reads dialect s (';' :: (cs ++ rest)) [] s₁ (cs ++ rest) :=
        ⟨_, lexed, fun more => readStatements_cons fun _ _ same => nomatch same⟩
      exact ⟨s₂, first.trans others, between₂⟩

/-- A statement names its module. -/
theorem reads_statement {xs : List (Atom × List Char)} {mark : Char} {name : List Char}
    (between : Between s) (front : IsImport (xs.map Prod.fst) ∨ IsReexport (xs.map Prod.fst))
    (spaced : Spaced (xs ++ [(.name mark name, [])])) :
    ∃ s', Reads dialect s (spell xs ++ ((Atom.name mark name).text ++ rest)) [String.ofList name]
      s' rest ∧ Between s' := by
  obtain ⟨keyword, tail, atoms, clause⟩ := exists_clause_of_front front
  obtain ⟨⟨_, gap⟩, ys, rfl, rfl, rfl⟩ := List.map_eq_cons_iff.mp atoms
  have fine := spaced.fine (.word keyword, gap) List.mem_cons_self
  have named : (Atom.name mark name).Fine := (spaced.fine (.name mark name, []) (by simp)).1
  obtain ⟨s₁, first, same⟩ := lexes_word dialect _ between.outside fine.1
    spaced.ends_front
  obtain ⟨s₂, blanks, alike⟩ := lexes_blanks dialect _
    (between.outside.of_frames_eq same) fine.2
  obtain ⟨ts, s₃, behind, shows, outside⟩ := lexes_clause dialect rest
    ((between.outside.of_frames_eq same).of_alike alike) clause spaced.tail
  obtain ⟨s₄, last, same', position⟩ := lexes_name dialect rest outside named
  have lexed := first.trans (blanks.trans (behind.trans last))
  have text : spell ((Atom.word keyword, gap) :: ys) ++ ((Atom.name mark name).text ++ rest) =
      keyword.toList ++ (gap ++ (spell ys ++ ((Atom.name mark name).text ++ rest))) := by
    simp [Atom.text]
  rw [text]
  refine ⟨s₄, ⟨_, lexed, fun more => ?_⟩, outside.of_frames_eq same', by rw [position]; decide⟩
  rw [List.nil_append, List.singleton_append, List.cons_append, List.append_assoc,
    List.singleton_append, readStatements_statement front rfl between.free shows rfl,
    unquote_name named]
  rfl

/-- A header is read statement by statement. -/
theorem reads_header {names : List (List Char)} {header : List Char} (h : Header names header)
    (between : Between s) :
    ∃ s', Reads dialect s (header ++ rest) (names.map String.ofList) s' rest ∧ Between s' := by
  induction h generalizing s with
  | nil => exact ⟨s, .of_lexes_nil (.refl s rest), between⟩
  | @comment names gap cs header blanks comment _ ih =>
      obtain ⟨s₁, first, between₁⟩ := reads_blanks dialect (cs ++ (header ++ rest)) between
        blanks
      obtain ⟨s₂, second, between₂⟩ := reads_comment dialect (header ++ rest) between₁
        comment
      obtain ⟨s₃, others, between₃⟩ := ih between₂
      refine ⟨s₃, ?_, between₃⟩
      rw [List.append_assoc, List.append_assoc]
      exact first.trans (second.trans others)
  | @statement names gap behind header module mark xs blanks front spaced line_rest _ ih =>
      obtain ⟨s₁, first, between₁⟩ := reads_blanks dialect
        (spell xs ++ ((Atom.name mark module).text ++ (behind ++ (header ++ rest)))) between blanks
      obtain ⟨s₂, second, between₂⟩ := reads_statement dialect (behind ++ (header ++ rest))
        between₁ front spaced
      obtain ⟨s₃, third, between₃⟩ := reads_lineRest dialect (header ++ rest) between₂
        line_rest
      obtain ⟨s₄, others, between₄⟩ := ih between₃
      refine ⟨s₄, ?_, between₄⟩
      have text : gap ++ (spell xs ++ mark :: (module ++ mark :: (behind ++ header))) ++ rest =
          gap ++ (spell xs ++ ((Atom.name mark module).text ++ (behind ++ (header ++ rest)))) := by
        simp [Atom.text]
      rw [text]
      exact first.trans (second.trans (third.trans others))

variable {dialect rest}

/-- The first line of a header names no interpreter. -/
theorem dropInterpreterLine_header {names : List (List Char)} {header : List Char}
    (h : Header names header) (some_char : header ≠ []) :
    dropInterpreterLine (header ++ rest) = header ++ rest := by
  have blank {c : Char} {gap : List Char} (blanks : IsBlanks (c :: gap)) : c ≠ '#' := by
    rintro rfl
    exact Bool.noConfusion (blanks _ List.mem_cons_self : false = true)
  obtain ⟨c, cs, begins, other⟩ : ∃ c cs, header = c :: cs ∧ c ≠ '#' := by
    cases h with
    | nil => exact absurd rfl some_char
    | @comment _ gap _ _ blanks comment _ =>
        cases gap with
        | nil =>
            cases comment
            exact ⟨_, _, rfl, by decide⟩
        | cons c gap => exact ⟨c, _, rfl, blank blanks⟩
    | @statement _ gap _ _ _ _ xs blanks front _ _ _ =>
        cases gap with
        | nil =>
            rcases front with front | front <;> obtain ⟨tail, atoms, -⟩ := front.exists_clause <;>
              obtain ⟨⟨_, gap⟩, ys, rfl, rfl, -⟩ := List.map_eq_cons_iff.mp atoms
            · exact ⟨'i', _, rfl, by decide⟩
            · exact ⟨'e', _, rfl, by decide⟩
        | cons c gap => exact ⟨c, _, rfl, blank blanks⟩
  rw [begins, List.cons_append, dropInterpreterLine, if_neg]
  simp [List.isPrefixOf, other.symm]

theorem eq_nil_of_header_nil {names : List (List Char)} (h : Header names []) : names = [] := by
  generalize nothing : [] = header at h
  cases h with
  | nil => rfl
  | comment _ comment _ => cases comment; simp at nothing
  | statement _ _ _ _ _ => simp at nothing

/-- The statements of a header name the modules that are listed with it, in front of what the rest
of a script names. -/
theorem exists_statedModules_eq {names : List (List Char)} {header : List Char}
    (h : Header names header) (rest : List Char) :
    ∃ more, statedModules dialect (header ++ rest) = names.map String.ofList ++ more ∧
      (rest = [] → more = []) := by
  rcases eq_or_ne header [] with rfl | some_char
  · obtain rfl := eq_nil_of_header_nil h
    exact ⟨_, rfl, fun nothing => by subst nothing; rfl⟩
  · have between : Between Lexer.start := ⟨⟨rfl, nofun⟩, nofun⟩
    obtain ⟨s', ⟨ts, lexed, read⟩, -⟩ := reads_header dialect rest h between
    obtain ⟨fuel, all⟩ := lexed.tokens_eq (dropInterpreterLine_header h some_char)
    rw [statedModules, all, read]
    refine ⟨_, rfl, ?_⟩
    rintro rfl
    cases fuel <;> rfl

end CommitSplit.Script
