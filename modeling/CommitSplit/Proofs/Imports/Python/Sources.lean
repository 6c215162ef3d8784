import CommitSplit.Proofs.Imports.Python.Scanning

/-!
# What is read of Python files

Of every line of a file that consists of imports the first statement is read, and of that statement
the modules and names up to the first one with something else than blanks and a comma behind it.
Nothing else is read; so no module is invented and their order is kept, and none is lost just where
every line has one statement that is read to its end.
-/

namespace CommitSplit.Python

open Source (IsBlanks)
open Specifier
open Text (Capture Cursor Pattern)
open Text.Pattern

variable {c c' : Cursor} {o : Origin} {items : List Item} {line : Line} {lines : List Line}
  {path : String} {gap rest tail more text : List Char} {below : List Specifier}

/-! ## Ends of statements -/

/-- The first visible character of a line, if there is one, ends a statement. -/
inductive IsEnd : List Char → Prop
  | blank {gap : List Char} : IsBlanks gap → IsEnd gap
  | mark {gap rest : List Char} {x : Char} : IsBlanks gap → x ∈ [';', '#'] →
      IsEnd (gap ++ x :: rest)

theorem IsLineRest.isEnd (h : IsLineRest rest) : IsEnd rest := by
  induction h with
  | nil => exact .blank nofun
  | @blank c cs blank _ _ ih =>
      cases ih with
      | blank blanks => exact .blank (List.forall_mem_cons.mpr ⟨blank, blanks⟩)
      | @mark gap rest x blanks stop =>
          have mark : IsEnd ((c :: gap) ++ x :: rest) :=
            .mark (List.forall_mem_cons.mpr ⟨blank, blanks⟩) stop
          exact mark
  | @semicolon cs _ _ =>
      have mark : IsEnd ([] ++ ';' :: cs) := .mark nofun (by decide)
      exact mark
  | @comment cs _ =>
      have mark : IsEnd ([] ++ '#' :: cs) := .mark nofun (by decide)
      exact mark

theorem IsEnd.endsWord (h : IsEnd rest) (ends : EndsWord more) : EndsWord (rest ++ more) := by
  have blank_ends {gap more : List Char} (blanks : IsBlanks gap) (ends : EndsWord more) :
      EndsWord (gap ++ more) := by
    rcases eq_or_ne gap [] with rfl | some_gap
    · exact ends
    · exact endsWord_blank blanks some_gap more
  cases h with
  | blank blanks => exact blank_ends blanks ends
  | mark blanks stop =>
      rw [List.append_assoc]
      refine blank_ends blanks (endsWord_cons ?_)
      rcases List.mem_pair.mp stop with rfl | rfl <;> decide

theorem IsEnd.leader_ne (h : IsEnd rest) (other : leader more ≠ some ',') :
    leader (rest ++ more) ≠ some ',' := by
  have marks : ∀ x ∈ [';', '#'], Text.isBlank x = false ∧ some x ≠ some ',' :=
    List.all_iff_forall_prop.mp (by decide)
  cases h with
  | blank blanks =>
      rw [leader_append_blanks blanks]
      exact other
  | @mark gap rest x blanks stop =>
      obtain ⟨visible, comma⟩ := marks x stop
      rw [List.append_assoc, leader_append_blanks blanks, List.cons_append, leader_cons visible]
      exact comma

theorem IsEnd.isBlanks_takeWhile (h : IsEnd rest) : IsBlanks (rest.takeWhile isNamesChar) := by
  cases h with
  | blank blanks => exact fun x there => blanks x ((List.takeWhile_sublist _).subset there)
  | @mark gap rest x blanks stop =>
      have marks : ∀ x ∈ [';', '#'], isNamesChar x = false :=
        List.all_iff_forall_prop.mp (by decide)
      intro y there
      rcases Text.mem_takeWhile_append there with there | there
      · exact blanks y ((List.takeWhile_sublist _).subset there)
      · rw [List.takeWhile_cons_of_neg (by simp [marks x stop])] at there
        cases there

/-- Nothing begins at the start of such a line if it is not blank. -/
theorem IsEnd.isBlanks_or_isClosed (h : IsEnd rest) :
    IsBlanks rest ∨ ∀ more, IsClosed (rest ++ more) := by
  cases h with
  | blank blanks => exact .inl blanks
  | @mark gap rest x blanks stop =>
      have marks : ∀ x ∈ [';', '#'], Text.isBlank x = false ∧
          ∀ word ∈ statementWords, word.head? ≠ some x :=
        List.all_iff_forall_prop.mp (by decide)
      obtain ⟨visible, other⟩ := marks x stop
      refine .inr fun more => ?_
      rw [List.append_assoc]
      exact (isClosed_cons visible other).append_blanks blanks

namespace Line

variable {others : List ((List Char × List Char) × Statement)}

theorem behindFirst_cons (x : (List Char × List Char) × Statement)
    (others : List ((List Char × List Char) × Statement)) (rest : List Char) :
    behindFirst (x :: others) rest =
      x.1.1 ++ ';' :: (x.1.2 ++ (x.2.text ++ behindFirst others rest)) := by
  simp [behindFirst]

theorem isEnd_behindFirst (legal : AreLegal others) (ended : IsLineRest rest) :
    IsEnd (behindFirst others rest) := by
  cases others with
  | nil => exact ended.isEnd
  | cons x others =>
      rw [behindFirst_cons]
      exact .mark (legal x List.mem_cons_self).1.1.isBlanks (by decide)

theorem quiet_behindFirst (legal : AreLegal others) (ended : IsLineRest rest)
    (ends : EndsWord more) : Quiet (behindFirst others rest) more := by
  induction others with
  | nil => exact quiet_of_notMem ended.notMem_feed
  | cons x others ih =>
      obtain ⟨⟨⟨front, back⟩, statement⟩, legal⟩ := List.forall_mem_cons.mp legal
      have ends' := (isEnd_behindFirst legal ended).endsWord ends
      rw [behindFirst_cons]
      refine quiet_append.mpr ⟨front.quiet, nofun, quiet_append.mpr ⟨back.quiet, ?_⟩⟩
      exact quiet_append.mpr ⟨statement.quiet ends', ih legal⟩

/-- No line that begins within another one begins a statement. -/
theorem IsLegal.quiet (h : line.IsLegal) (ends : EndsWord more) : Quiet line.text more := by
  cases h with
  | empty ended => exact quiet_of_notMem ended.notMem_feed
  | statements first others ended =>
      exact quiet_append.mpr ⟨first.quiet ((isEnd_behindFirst others ended).endsWord ends),
        quiet_behindFirst others ended ends⟩

end Line

/-- The first character of a statement. -/
theorem Statement.exists_text_eq (s : Statement) :
    ∃ x rest, s.text = x :: rest ∧ Text.isBlank x = false ∧ x ≠ ',' := by
  cases s with
  | modules gap items => exact ⟨'i', _, rfl, by decide, by decide⟩
  | names o items => exact ⟨'f', _, rfl, by decide, by decide⟩

/-- What stands behind a line. -/
def behindLine : List Line → List Char
  | [] => []
  | line :: lines => '\n' :: textOf (line :: lines)

theorem textOf_cons (line : Line) (lines : List Line) :
    textOf (line :: lines) = line.text ++ behindLine lines := by
  cases lines with
  | nil => exact List.intercalate_singleton.trans (List.append_nil _).symm
  | cons next lines => simp [textOf, behindLine, List.intercalate_cons_cons]

theorem endsWord_behindLine (lines : List Line) : EndsWord (behindLine lines) := by
  cases lines with
  | nil => exact nofun
  | cons line lines => exact endsWord_cons (by decide)

/-- No list goes on behind a line. -/
theorem leader_behindLine_ne (legal : ∀ line ∈ lines, line.IsLegal) :
    leader (behindLine lines) ≠ some ',' := by
  induction lines with
  | nil => exact nofun
  | cons line lines ih =>
      obtain ⟨here, behind⟩ := List.forall_mem_cons.mp legal
      have feed : leader (behindLine (line :: lines)) = leader (line.text ++ behindLine lines) := by
        have feed_blank : IsBlanks ['\n'] := by decide
        rw [behindLine, textOf_cons]
        exact leader_append_blanks feed_blank _
      rw [feed]
      cases here with
      | empty ended => exact ended.isEnd.leader_ne (ih behind)
      | @statements first others rest _ _ _ =>
          obtain ⟨x, rest', text, visible, other⟩ := first.exists_text_eq
          rw [Line.text, text, List.append_assoc, List.cons_append, leader_cons visible]
          exact fun same => other (Option.some.inj same)

/-! ## What is read -/

namespace Origin

/-- The modules that names from here stand for. -/
def specifiers (o : Origin) (path : String) (names : List (List Char)) : List Specifier :=
  if o.dots = 0 then [absoluteModule o.dotted]
  else if o.dotted = [] then names.map (moduleIn (packageOf path o.dots))
  else [moduleIn (packageOf path o.dots) o.dotted]

theorem IsLegal.ofFromImport_module (h : o.IsLegal) (path : String) (names : List Char) :
    ofFromImport path o.module names = o.specifiers path (importedNames names) := by
  have first : o.dotted.head? ≠ some '.' := by
    rcases h.dotted with nothing | named
    · simp [nothing]
    · obtain ⟨x, rest, spelled, part⟩ := named.isWritten.first
      rw [spelled]
      rintro ⟨⟩
      exact absurd part (by decide)
  rw [specifiers]
  split
  · rename_i none_dot
    have undotted : o.dotted.takeWhile (· = '.') = [] ∧
        o.dotted.dropWhile (· = '.') = o.dotted := by
      cases dotted : o.dotted with
      | nil => exact ⟨rfl, rfl⟩
      | cons x rest =>
          have other : x ≠ '.' := by simpa [dotted] using first
          simp [other]
    rw [module, none_dot, List.replicate_zero, List.nil_append, ofFromImport]
    dsimp only
    rw [undotted.1, undotted.2]
    rfl
  · rename_i some_dot
    rw [module, ofFromImport_relative (Nat.one_le_iff_ne_zero.mpr some_dot) first, modulesOf]
    split <;> rfl

/-- A match gives what the names stand for, all at the place of the module. -/
theorem IsLegal.fromEntries_eq {names : List Char} {offset offset' : Nat} (h : o.IsLegal)
    (path : String)
    (captured : d.captures = [(2, ⟨offset', names⟩), (1, ⟨offset, o.module⟩)]) :
    fromEntries path d = (o.specifiers path (importedNames names)).map fun s => (offset, s) := by
  rw [← h.ofFromImport_module, fromEntries, Cursor.capture?, Cursor.capture?, captured]
  rfl

end Origin

/-- A match gives the modules that are reached, all at the place of the first one. -/
theorem IsList.importEntries_eq {item : Item} {offset : Nat}
    (h : IsList false IsModule (item :: items))
    (captured : d.captures = [(1, ⟨offset, item.name ++ further (item :: items)⟩)]) :
    importEntries d =
      ((reached isListChar (item :: items)).map absoluteModule).map fun s => (offset, s) := by
  rw [importEntries, Cursor.capture?, captured, ← h.modules_further, List.map_map, List.map_map]
  exact List.flatMap_singleton _ _

namespace Statement

/-- The modules of a statement in their order. -/
def named (path : String) : Statement → List Specifier
  | modules _ items => items.map fun item => absoluteModule item.name
  | names o items => o.specifiers path (withoutStar (items.map Item.name))

/-- The modules that are read from a statement at the start of a line. -/
def seen (path : String) : Statement → List Specifier
  | modules gap items =>
    if gap.all Text.isBlank then (reached isListChar items).map absoluteModule else []
  | names o items => if o.isSeen then o.specifiers path (o.heard items) else []

end Statement

namespace Line

/-- The modules of all statements of a line. -/
def named (path : String) : Line → List Specifier
  | empty _ => []
  | statements first others _ => first.named path ++ others.flatMap fun x => x.2.named path

/-- The modules that are read from a line. -/
def seen (path : String) : Line → List Specifier
  | empty _ => []
  | statements first _ _ => first.seen path

end Line

/-! ## One line -/

section Line

variable (start : IsLineStart c) (bare : c.captures = [])
  (next : Reads path (c.past (text ++ more.take 1)) below) (quiet : Quiet text more)

include start bare next quiet

theorem reads_modules (spaced : IsGap false gap) (some_gap : gap ≠ [])
    (listed : IsList false IsModule items) (ends : EndsStatement (tail ++ more))
    (split : text = (Statement.modules gap items).text ++ tail) (stands : c.rest = text ++ more) :
    Reads path c ((Statement.modules gap items).seen path ++ below) := by
  have written : c.rest = "import".toList ++ (gap ++ (spell items ++ (tail ++ more))) := by
    rw [stands, split, Statement.text_modules]
    simp
  have none_from : pythonFrom.run c = [] := by
    refine run_statement_of_not_opens ?_
    rw [written]
    exact not_opens_cons (x := 'i') (by decide) (by decide)
  have found_from : pythonFrom.found c = pythonFrom.found (c.past (text ++ more.take 1)) :=
    found_past_line (s := "from") (by decide) quiet stands none_from
  rw [Statement.seen]
  by_cases blanks : gap.all Text.isBlank = true
  · obtain ⟨item, items, rfl⟩ : ∃ item others, items = item :: others := by
      cases listed <;> exact ⟨_, _, rfl⟩
    have named : IsModule item.name := by
      cases listed <;> assumption
    obtain ⟨d, captured, found_import⟩ := found_of_takesIn (s := "import") (q := modulesPattern)
      (by decide) bare quiet stands (split ▸ takesIn_pythonImport start bare
        (List.all_eq_true.mp blanks) some_gap listed ends (split ▸ stands))
    have entries := listed.importEntries_eq captured
    have same : ∀ e ∈ importEntries d, e.1 = c.offset + ("import".toList ++ gap).length := by
      rw [entries]
      simp
    have read : (importEntries d).map Prod.snd =
        (reached isListChar (item :: items)).map absoluteModule := by
      rw [entries, List.map_map]
      exact List.map_id _
    have last : c.offset + ("import".toList ++ gap).length <
        (c.past (text ++ more.take 1)).offset := by
      obtain ⟨x, name, spelled, -⟩ := named.isWritten.first
      rw [Cursor.offset_past, split, Statement.text_modules, spell_cons, spelled]
      simp only [List.length_append, List.length_cons]
      omega
    rw [if_pos blanks, ← read]
    exact next.of_line same (Nat.le_add_right _ _) last
      (.inr ⟨found_from, by rw [pythonImport_eq, found_import, List.flatMap_cons]⟩)
  · have none_import := run_pythonImport_of_gap spaced
      (fun all => blanks (List.all_eq_true.mpr all)) written
    rw [if_neg blanks, List.nil_append]
    exact next.of_found (Nat.le_add_right _ _) found_from
      (found_past_line (s := "import") (by decide) quiet stands none_import)

theorem reads_names (legal : o.IsLegal) (imports : o.Imports items)
    (blanks : IsBlanks (tail.takeWhile isNamesChar)) (ends : EndsWord (tail ++ more))
    (feeds : ∀ x ∈ more.head?, isNamesChar x = false)
    (split : text = (Statement.names o items).text ++ tail) (stands : c.rest = text ++ more) :
    Reads path c ((Statement.names o items).seen path ++ below) := by
  have none_import : pythonImport.run c = [] := by
    refine run_statement_of_not_opens ?_
    rw [stands, split, Statement.text_names, Origin.front_eq, List.append_assoc, List.append_assoc,
      List.append_assoc]
    exact not_opens_cons (x := 'f') (by decide) (by decide)
  have found_import : pythonImport.found c = pythonImport.found (c.past (text ++ more.take 1)) :=
    found_past_line (s := "import") (by decide) quiet stands none_import
  rw [Statement.seen]
  by_cases seen : o.isSeen = true
  · obtain ⟨offset, names, read, takes⟩ := legal.takesIn_pythonFrom imports seen start bare blanks
      feeds (split ▸ stands)
    obtain ⟨d, captured, found_from⟩ := found_of_takesIn (s := "from") (q := originPattern)
      (by decide) bare quiet stands (split ▸ takes)
    have entries := legal.fromEntries_eq path captured
    have same : ∀ e ∈ fromEntries path d,
        e.1 = c.offset + ("from".toList ++ o.behindFrom).length := by
      rw [entries]
      simp
    have all : (fromEntries path d).map Prod.snd = o.specifiers path (o.heard items) := by
      rw [entries, read, List.map_map]
      exact List.map_id _
    have last : c.offset + ("from".toList ++ o.behindFrom).length <
        (c.past (text ++ more.take 1)).offset := by
      obtain ⟨x, module, spelled, -⟩ := legal.first_module
      rw [Cursor.offset_past, split, Statement.text_names, Origin.front_eq, spelled]
      simp only [List.length_append, List.length_cons]
      omega
    rw [if_pos seen, ← all]
    exact next.of_line same (Nat.le_add_right _ _) last
      (.inl ⟨by rw [pythonFrom_eq, found_from, List.flatMap_cons], found_import⟩)
  · rw [Bool.not_eq_true] at seen
    have none_from := legal.run_pythonFrom_eq_nil imports seen ends
      (by rw [stands, split, List.append_assoc])
    simp only [seen, Bool.false_eq_true, if_false, List.nil_append]
    exact next.of_found (Nat.le_add_right _ _)
      (found_past_line (s := "from") (by decide) quiet stands none_from) found_import

end Line

/-- A search goes over a line without statements. -/
theorem found_past_empty {s : String} {q : Pattern} (there : s.toList ∈ statementWords)
    (start : IsLineStart c) (ended : IsLineRest rest) (stands : c.rest = rest ++ behindLine lines) :
    (statement s q).found c =
      (statement s q).found (c.past (rest ++ (behindLine lines).take 1)) := by
  have quiet : Quiet rest (behindLine lines) := quiet_of_notMem ended.notMem_feed
  have closed (h : IsClosed c.rest) : (statement s q).found c =
      (statement s q).found (c.past (rest ++ (behindLine lines).take 1)) :=
    found_past_line there quiet stands (run_statement_of_not_opens (h _ there))
  rcases ended.isEnd.isBlanks_or_isClosed with blanks | no_statement
  · cases lines with
    | nil =>
        refine closed ?_
        rw [stands]
        exact isClosed_nil.append_blanks blanks
    | cons line lines =>
        have feed : (behindLine (line :: lines)).take 1 = ['\n'] := rfl
        have feed_blank : IsBlanks ['\n'] := by decide
        have split : c.rest = (rest ++ ['\n']) ++ textOf (line :: lines) := by
          rw [stands, behindLine]
          simp
        rw [feed]
        exact found_past_blanks there start (List.forall_mem_append.mpr ⟨blanks, feed_blank⟩)
          List.getLast?_concat split
  · refine closed ?_
    rw [stands]
    exact no_statement _

/-- What a line gives comes in front of what the lines behind it give. -/
theorem reads_line (legal : line.IsLegal) (behind : ∀ line ∈ lines, line.IsLegal)
    (start : IsLineStart c) (bare : c.captures = [])
    (next : Reads path (c.past (line.text ++ (behindLine lines).take 1)) below)
    (stands : c.rest = line.text ++ behindLine lines) : Reads path c (line.seen path ++ below) := by
  have quiet := legal.quiet (endsWord_behindLine lines)
  cases legal with
  | empty ended =>
      rw [Line.seen, List.nil_append]
      exact next.of_found (Nat.le_add_right _ _)
        (found_past_empty (s := "from") (by decide) start ended stands)
        (found_past_empty (s := "import") (by decide) start ended stands)
  | statements first others ended =>
      have ends := Line.isEnd_behindFirst others ended
      have word := ends.endsWord (endsWord_behindLine lines)
      rw [Line.seen]
      cases first with
      | modules spaced some_gap listed =>
          exact reads_modules start bare next quiet spaced some_gap listed
            ⟨word, ends.leader_ne (leader_behindLine_ne behind)⟩ rfl stands
      | names legal imports =>
          have feeds : ∀ x ∈ (behindLine lines).head?, isNamesChar x = false := by
            cases lines with
            | nil => exact nofun
            | cons line lines =>
                rintro _ ⟨⟩
                decide
          exact reads_names start bare next quiet legal imports ends.isBlanks_takeWhile word feeds
            rfl stands

theorem reads_lines (legal : ∀ line ∈ lines, line.IsLegal) (start : IsLineStart c ∨ lines = [])
    (bare : c.captures = []) (stands : c.rest = textOf lines) :
    Reads path c (lines.flatMap (Line.seen path)) := by
  induction lines generalizing c with
  | nil => exact reads_at_end stands
  | cons line lines ih =>
      obtain ⟨here, behind⟩ := List.forall_mem_cons.mp legal
      rw [textOf_cons] at stands
      have start : IsLineStart c := start.resolve_right (List.cons_ne_nil line lines)
      rw [List.flatMap_cons]
      refine reads_line here behind start bare (ih behind ?_ bare ?_) stands
      · cases lines with
        | nil => exact .inr rfl
        | cons next lines =>
            exact .inl (.inr (Cursor.before_past_append_singleton c line.text '\n'))
      · refine Cursor.rest_past ?_
        rw [stands]
        cases lines with
        | nil => simp [behindLine, textOf]
        | cons next lines => simp [behindLine]

/-- The specifiers of a file are what is read from its lines. -/
theorem inPython_textOf (path : String) (legal : ∀ line ∈ lines, line.IsLegal) :
    inPython path (textOf lines) = lines.flatMap (Line.seen path) := by
  rw [inPython_eq]
  exact (reads_lines legal (c := Cursor.start (textOf lines)) (.inl (.inl rfl)) rfl rfl).merged

end CommitSplit.Python
