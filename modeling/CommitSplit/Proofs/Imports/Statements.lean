import CommitSplit.Proofs.Imports.Layout
import CommitSplit.Proofs.Imports.Search

/-!
# Statements that are found

In a spaced layout an import, or an export from a module, is what the pattern of such statements
matches: its words and marks are passed one after the other, up to the quoted name of the module.
-/

namespace CommitSplit.Specifier

open Text (Capture Cursor Pattern)
open Text.Pattern

variable {c d : Cursor} {p : Pattern} {pre u v w name more content : List Char}

open Script (Atom Clause IsImport IsReexport IsWord Spaced spell)
open Source (IsBlanks)

theorem Inside.nil : Inside [] where
  unquoted _ there := absurd there List.not_mem_nil
  closes u v split := by simp at split

theorem Inside.cons {x : Char} (plain : x ∉ quotes.toList) (closes : x = '\x7b' → '\x7d' ∈ pre)
    (h : Inside pre) : Inside (x :: pre) where
  unquoted := List.forall_mem_cons.mpr ⟨plain, h.unquoted⟩
  closes u v split := by
    cases u with
    | nil =>
        obtain ⟨rfl, rfl⟩ := List.cons.inj split
        exact closes rfl
    | cons y u => exact h.closes u v (List.cons.inj split).2

/-- Characters that are neither quotation marks nor opening braces can be put in front. -/
theorem Inside.append (plain : ∀ x ∈ u, x ∉ quotes.toList ∧ x ≠ '\x7b') (h : Inside pre) :
    Inside (u ++ pre) := by
  induction u with
  | nil => exact h
  | cons x u ih =>
      obtain ⟨⟨plain_first, other⟩, plain⟩ := List.forall_mem_cons.mp plain
      exact .cons plain_first (fun brace => absurd brace other) (ih plain)

theorem plain_of_isBlanks {gap : List Char} (blanks : IsBlanks gap) :
    ∀ x ∈ gap, x ∉ quotes.toList ∧ x ≠ '\x7b' := by
  have apart : ∀ y ∈ '\x7b' :: quotes.toList, Text.isBlank y = false :=
    List.all_iff_forall_prop.mp rfl
  intro x there
  refine ⟨fun isMark => ?_, fun brace => ?_⟩
  · exact Bool.noConfusion ((blanks x there).symm.trans (apart x (List.mem_cons_of_mem _ isMark)))
  · subst brace
    exact Bool.noConfusion (blanks _ there)

theorem plain_of_isWord {t : String} (word : IsWord t) :
    ∀ x ∈ t.toList, x ∉ quotes.toList ∧ x ≠ '\x7b' := by
  have apart : ∀ y ∈ '\x7b' :: quotes.toList, Text.isWordChar y = false ∧ y ≠ '$' :=
    List.all_iff_forall_prop.mp rfl
  exact fun x there => ⟨fun isMark => word.ne there (apart x (List.mem_cons_of_mem _ isMark)) rfl,
    word.ne there (apart _ List.mem_cons_self)⟩

/-- A clause has no quotation marks, and its braces match. -/
theorem inside_spell {depth : Nat} {xs : List (Atom × List Char)}
    (clause : Clause depth (xs.map Prod.fst)) (fine : ∀ x ∈ xs, x.1.Fine ∧ IsBlanks x.2) :
    Inside (spell xs) ∧ (0 < depth → '\x7d' ∈ spell xs) := by
  induction xs generalizing depth with
  | nil =>
      obtain rfl : depth = 0 := clause
      exact ⟨.nil, nofun⟩
  | cons x xs ih =>
      obtain ⟨⟨fine_first, blanks⟩, others⟩ := List.forall_mem_cons.mp fine
      obtain ⟨a, gap⟩ := x
      have behind {more : List Char} : Inside more → Inside (gap ++ more) :=
        .append (plain_of_isBlanks blanks)
      rw [Script.spell_cons]
      cases a with
      | name _ _ => exact clause.elim
      | word t =>
          obtain ⟨inside, closes⟩ := ih clause.2 others
          exact ⟨.append (plain_of_isWord fine_first) (behind inside),
            fun deep => by simp [closes deep]⟩
      | star =>
          obtain ⟨inside, closes⟩ := ih clause.tail others
          exact ⟨.append (u := ['*']) (List.forall_mem_singleton.mpr (by decide)) (behind inside),
            fun deep => by simp [closes deep]⟩
      | comma =>
          obtain ⟨inside, closes⟩ := ih clause.tail others
          exact ⟨.append (u := [',']) (List.forall_mem_singleton.mpr (by decide)) (behind inside),
            fun deep => by simp [closes deep]⟩
      | opening =>
          obtain ⟨inside, closes⟩ := ih clause.tail others
          have closed : '\x7d' ∈ gap ++ spell xs :=
            List.mem_append_right _ (closes (Nat.succ_pos depth))
          exact ⟨.cons (by decide) (fun _ => closed) (behind inside),
            fun _ => List.mem_cons_of_mem _ closed⟩
      | closing =>
          obtain ⟨inside, -⟩ := ih clause.2 others
          have closes : Inside (['\x7d'] ++ (gap ++ spell xs)) :=
            .append (List.forall_mem_singleton.mpr (by decide)) (behind inside)
          exact ⟨closes, fun _ => List.mem_cons_self⟩

/-- So has all that stands in front of the name of a module. -/
theorem inside_statement {xs : List (Atom × List Char)} {gap : List Char} (blanks : IsBlanks gap)
    (front : IsImport (xs.map Prod.fst) ∨ IsReexport (xs.map Prod.fst))
    (fine : ∀ x ∈ xs, x.1.Fine ∧ IsBlanks x.2) : Inside (gap ++ spell xs) := by
  obtain ⟨keyword, tail, atoms, clause⟩ := Script.exists_clause_of_front front
  obtain ⟨⟨_, gap'⟩, ys, rfl, rfl, rfl⟩ := List.map_eq_cons_iff.mp atoms
  obtain ⟨⟨word, blanks'⟩, others⟩ := List.forall_mem_cons.mp fine
  rw [Script.spell_cons]
  exact .append (plain_of_isBlanks blanks) (.append (plain_of_isWord word)
    (.append (plain_of_isBlanks blanks') (inside_spell clause others).1))

/-! ## Statements that are found -/

variable {mark mark' : Char}

theorem meets_quotedName (isMark : mark ∈ quotes.toList) (isMark' : mark' ∈ quotes.toList)
    (some_char : name ≠ []) (plain : ∀ x ∈ name, x ∉ quotes.toList) :
    Meets quotedName (mark :: (name ++ mark' :: more)) := by
  intro c text
  obtain ⟨x, name, rfl⟩ := List.exists_cons_of_ne_nil some_char
  have opened : c.past [mark] ∈ (oneOf quotes).run c :=
    Passes.one (decide_eq_true isMark) c _ text
  have rest : (c.past [mark]).rest = (x :: name) ++ mark' :: more :=
    Cursor.rest_past (u := [mark]) text
  have named : (c.past [mark]).past (x :: name) ∈
      (many1 (noneOf quotes)).run (c.past [mark]) :=
    Passes.plus (fun y there => decide_eq_true (plain y there)) _ _ rest
  have closed : ∀ captures, _ ∈ (oneOf quotes).run
      { (c.past [mark]).past (x :: name) with captures } := fun captures =>
    Passes.one (decide_eq_true isMark') _ more (Cursor.rest_past rest)
  exact List.ne_nil_of_mem (mem_run_seq.mpr ⟨_, opened, mem_run_seq.mpr
    ⟨_, List.mem_map.mpr ⟨_, named, rfl⟩, closed _⟩⟩)

/-- Whether a character may stand in the clause of an import. -/
def isClauseChar (c : Char) : Bool :=
  Text.isWordChar c || Text.isBlank c || c ∈ "*\x7b\x7d,$".toList

theorem isClauseChar_of_mem_text {a : Atom} (fine : a.Fine) (unnamed : ∀ mark t, a ≠ .name mark t)
    {x : Char} (there : x ∈ a.text) : isClauseChar x = true := by
  cases a with
  | name mark t => exact absurd rfl (unnamed mark t)
  | word t =>
      rcases (fine.parts x there).2 with part | rfl
      · simp [isClauseChar, part]
      · rfl
  | star | comma | opening | closing =>
      obtain rfl := List.mem_singleton.mp there
      rfl

theorem isClauseChar_of_mem_spell {xs : List (Atom × List Char)}
    (fine : ∀ x ∈ xs, x.1.Fine ∧ IsBlanks x.2) (unnamed : ∀ x ∈ xs, ∀ mark t, x.1 ≠ .name mark t)
    {x : Char} (there : x ∈ spell xs) : isClauseChar x = true := by
  obtain ⟨y, hy, there⟩ := List.mem_flatMap.mp there
  rcases List.mem_append.mp there with part | gap
  · exact isClauseChar_of_mem_text (fine y hy).1 (unnamed y hy) part
  · simp [isClauseChar, (fine y hy).2 x gap]

/-- The clause of an import, up to the blanks behind `from`. -/
theorem passes_clause {ys : List (Atom × List Char)} {gap : List Char}
    (clause : Clause 0 (ys.map Prod.fst)) (some_atom : ys ≠ [])
    (last : ∀ a ∈ (ys.map Prod.fst).getLast?, a.needsGap (.word "from") = true)
    (spaced : Spaced (ys ++ [(Atom.word "from", gap), (Atom.name mark name, [])])) :
    Passes (sequence [few1 (one isClauseChar), many1 blank, Pattern.text "from", many1 blank])
      (spell ys ++ ("from".toList ++ gap)) := by
  have accepted : ∀ c ∈ spell ys, isClauseChar c = true := by
    refine fun c => isClauseChar_of_mem_spell (fun x there => ?_) fun x there => ?_
    · exact spaced.fine x (List.mem_append_left _ there)
    · exact clause.ne_name x.1 (List.mem_map_of_mem there)
  obtain rfl | ⟨zs, z, rfl⟩ := ys.eq_nil_or_concat'
  · exact absurd rfl some_atom
  have fine := spaced.fine z (by simp)
  have some_gap : z.2 ≠ [] := by
    rw [List.append_assoc] at spaced
    exact spaced.gap_ne_nil _ (last z.1 (by simp))
  have from_gap : IsBlanks gap ∧ gap ≠ [] :=
    ⟨(spaced.fine (Atom.word "from", gap) (by simp)).2, spaced.gap_ne_nil _ rfl⟩
  -- The reluctant part of the pattern leaves the last blank of the clause to the next part.
  obtain no_gap | ⟨front, b, gap_eq⟩ := z.2.eq_nil_or_concat'
  · exact absurd no_gap some_gap
  have split : spell (zs ++ [z]) = (spell zs ++ (z.1.text ++ front)) ++ [b] := by
    simp [gap_eq]
  have blank : IsBlanks [b] := fun c there => fine.2 c (by simp_all)
  obtain ⟨c, cs, some_char⟩ := List.exists_cons_of_ne_nil
    (l := spell zs ++ (z.1.text ++ front)) (by simp [Atom.text_ne_nil fine.1])
  rw [split, some_char] at accepted
  rw [split, some_char, List.append_assoc]
  exact .seq (.plus fun c there => accepted c (List.mem_append_left _ there))
    (.seq (passes_blank blank (List.cons_ne_nil _ _))
      (.seq (.text "from") (passes_blank from_gap.1 from_gap.2)))

/-- The name of the module in a spaced layout. -/
theorem fine_name {xs : List (Atom × List Char)}
    (spaced : Spaced (xs ++ [(Atom.name mark name, [])])) :
    mark ∈ quotes.toList ∧ name ≠ [] ∧ ∀ x ∈ name, x ∉ quotes.toList ∧ x ≠ '\n' := by
  obtain ⟨isMark, some_char, plain⟩ := (spaced.fine _ (List.mem_append_right xs
    (List.mem_singleton_self _))).1
  have marks : ∀ x ∈ quotes.toList, isQuote x = true := List.all_eq_true.mp rfl
  refine ⟨isMark, some_char, fun x there => ⟨fun isMark => ?_, (plain x there).2.2⟩⟩
  exact Bool.noConfusion ((plain x there).1.symm.trans (marks x isMark))

/-- An import is met behind the start of a line. -/
theorem meets_scriptImport {xs : List (Atom × List Char)} (front : IsImport (xs.map Prod.fst))
    (spaced : Spaced (xs ++ [(Atom.name mark name, [])])) :
    ∃ p, scriptImport = seq lineIndent p ∧
      Meets p (spell xs ++ (mark :: (name ++ mark :: more))) := by
  refine ⟨_, rfl, ?_⟩
  obtain ⟨isMark, some_char, plain⟩ := fine_name spaced
  have named : Meets quotedName (mark :: (name ++ mark :: more)) :=
    meets_quotedName isMark isMark some_char fun x there => (plain x there).1
  generalize atoms_eq : xs.map Prod.fst = atoms at front
  cases front with
  | bare =>
      obtain ⟨⟨_, gap⟩, ys, rfl, rfl, nothing⟩ := List.map_eq_cons_iff.mp atoms_eq
      obtain rfl := List.map_eq_nil_iff.mp nothing
      have blanks := (spaced.fine _ List.mem_cons_self).2
      rw [Script.spell_cons, Script.spell_nil, List.append_nil, List.append_assoc]
      exact (Passes.text "import").meets
        ((passes_blank blanks (spaced.gap_ne_nil [] rfl)).meets (Passes.skipped.meets named))
  | @clause atoms closed some_atom first last =>
      obtain ⟨⟨_, gap₁⟩, ws, rfl, rfl, tail₁⟩ := List.map_eq_cons_iff.mp atoms_eq
      obtain ⟨ys, ws, rfl, rfl, tail₂⟩ := List.map_eq_append_iff.mp tail₁
      obtain ⟨⟨_, gap₃⟩, ws, rfl, rfl, nothing⟩ := List.map_eq_cons_iff.mp tail₂
      obtain rfl := List.map_eq_nil_iff.mp nothing
      have fine₁ := spaced.fine _ List.mem_cons_self
      have tail : Spaced (ys ++ [(Atom.word "from", gap₃), (Atom.name mark name, [])]) := by
        simpa using spaced.right [(_, gap₁)]
      have clause := passes_clause closed (by simpa using some_atom) last tail
      have some₁ : gap₁ ≠ [] := by
        obtain ⟨y, ys, rfl⟩ := List.exists_cons_of_ne_nil (l := ys) (by simpa using some_atom)
        exact spaced.gap_ne_nil [] (first y.1 rfl)
      have text := (Passes.text "import").meets ((passes_blank fine₁.2 some₁).meets
        ((Passes.left (q := empty) clause).meets named))
      rw [Script.spell_cons, Script.spell_append, Script.spell_cons, Script.spell_nil,
        List.append_nil, List.append_assoc, List.append_assoc]
      exact text

/-- The front of an export, up to what is exported. -/
theorem meets_export {typed : Bool} {gap : List Char} {ts ys : List (Atom × List Char)}
    {y : Atom × List Char} (typing : ts.map Prod.fst = Script.typing typed)
    (spaced : Spaced ((Atom.word "export", gap) :: (ts ++ y :: ys)))
    (apart : ∀ t, (Atom.word t).needsGap y.1 = true) (behind : Meets p more) :
    Meets (seq (Pattern.text "export") (seq (many1 blank)
        (seq (optional (seq (Pattern.text "type") (many1 blank))) p)))
      ("export".toList ++ (gap ++ (spell ts ++ more))) := by
  have blanks := (spaced.fine _ List.mem_cons_self).2
  refine (Passes.text "export").meets ?_
  cases typed with
  | false =>
      obtain rfl := List.map_eq_nil_iff.mp typing
      exact (passes_blank blanks (spaced.gap_ne_nil [] (apart _))).meets
        (Passes.skipped.meets behind)
  | true =>
      obtain ⟨⟨_, gap'⟩, ts, rfl, rfl, nothing⟩ := List.map_eq_cons_iff.mp typing
      obtain rfl := List.map_eq_nil_iff.mp nothing
      have blanks' := (spaced.fine (Atom.word "type", gap') (by simp)).2
      have type_word : Passes (optional (seq (Pattern.text "type") (many1 blank)))
          ("type".toList ++ gap') :=
        .left (.seq (.text "type")
          (passes_blank blanks' (spaced.gap_ne_nil [(_, gap)] (apart _))))
      refine (passes_blank blanks (spaced.gap_ne_nil [] rfl)).meets ?_
      rw [Script.spell_cons, Script.spell_nil, List.append_nil]
      exact type_word.meets behind

/-- The end of an export, behind what is exported. -/
theorem meets_from {gap gap' : List Char} {xs : List (Atom × List Char)} {x : Atom}
    (spaced : Spaced (xs ++ [(x, gap), (Atom.word "from", gap'), (Atom.name mark name, [])])) :
    Meets (sequence [many blank, Pattern.text "from", many1 blank, quotedName])
      (gap ++ ("from".toList ++ (gap' ++ (mark :: (name ++ mark :: more))))) := by
  have named : Spaced ((xs ++ [(x, gap), (Atom.word "from", gap')]) ++
      [(Atom.name mark name, [])]) := by
    simpa using spaced
  obtain ⟨isMark, some_char, plain⟩ := fine_name named
  have blanks := (spaced.fine (x, gap) (by simp)).2
  have blanks' := (spaced.fine (Atom.word "from", gap') (by simp)).2
  have some_blank : gap' ≠ [] := by
    have tail : Spaced ((xs ++ [(x, gap)]) ++
        [(Atom.word "from", gap'), (Atom.name mark name, [])]) := by
      simpa using spaced
    exact tail.gap_ne_nil _ rfl
  exact (Passes.star blanks).meets ((Passes.text "from").meets
    ((passes_blank blanks' some_blank).meets
      (meets_quotedName isMark isMark some_char fun x there => (plain x there).1)))

theorem blanks_closed {gap : List Char} (blanks : IsBlanks gap) : '\x7d' ∉ gap :=
  fun there => Bool.noConfusion (blanks _ there : false = true)

/-- No brace closes within a list of names. -/
theorem body_open {xs : List (Atom × List Char)} (listed : ∀ x ∈ xs, x.1.isListed = true)
    (fine : ∀ x ∈ xs, x.1.Fine ∧ IsBlanks x.2) : '\x7d' ∉ spell xs := by
  intro there
  obtain ⟨⟨a, gap⟩, hx, there⟩ := List.mem_flatMap.mp there
  obtain ⟨fine, blanks⟩ := fine _ hx
  rcases List.mem_append.mp there with part | gap
  · cases a with
    | word t => exact IsWord.ne fine part (by decide) rfl
    | comma => exact absurd (List.mem_singleton.mp part) (by decide)
    | name _ _ | star | opening | closing => cases listed _ hx
  · exact blanks_closed blanks gap

theorem passes_alias {t : String} (word : IsWord t) (plain : '$' ∉ t.toList) :
    Passes (many1 (wordOr "")) t.toList := by
  obtain ⟨c, cs, spelled, -⟩ := word.begins
  rw [spelled]
  refine .plus fun x there => ?_
  rw [← spelled] at there
  rcases (word.parts x there).2 with part | rfl
  · simp [part]
  · exact absurd there plain

/-- What is exported ends in front of `from`; what is passed up to there is all that remains to be
said of the three forms of an export. -/
theorem meets_exported (atoms : List Atom) {typed : Bool} {xs : List (Atom × List Char)} {a : Atom}
    (atoms_eq : xs.map Prod.fst =
      .word "export" :: (Script.typing typed ++ (atoms ++ [a, .word "from"])))
    (spaced : Spaced (xs ++ [(Atom.name mark name, [])]))
    (apart : ∀ t, ∀ b ∈ (atoms ++ [a]).head?, (Atom.word t).needsGap b = true)
    (passed : ∀ zs last ys, zs.map Prod.fst = atoms → Spaced (zs ++ (a, last) :: ys) →
      Passes p (spell zs ++ a.text)) :
    Meets (seq (Pattern.text "export") (seq (many1 blank)
        (seq (optional (seq (Pattern.text "type") (many1 blank)))
          (seq p (sequence [many blank, Pattern.text "from", many1 blank, quotedName])))))
      (spell xs ++ (mark :: (name ++ mark :: more))) := by
  obtain ⟨⟨_, gap⟩, ws, rfl, rfl, tail₁⟩ := List.map_eq_cons_iff.mp atoms_eq
  obtain ⟨ts, ws, rfl, typing, tail₂⟩ := List.map_eq_append_iff.mp tail₁
  obtain ⟨zs, ws, rfl, rfl, tail₃⟩ := List.map_eq_append_iff.mp tail₂
  obtain ⟨⟨a, last⟩, ws, rfl, rfl, tail₄⟩ := List.map_eq_cons_iff.mp tail₃
  obtain ⟨⟨_, gap'⟩, ws, rfl, rfl, nothing⟩ := List.map_eq_cons_iff.mp tail₄
  obtain rfl := List.map_eq_nil_iff.mp nothing
  have exported : Spaced (((Atom.word "export", gap) :: ts) ++ (zs ++
      [(a, last), (Atom.word "from", gap'), (Atom.name mark name, [])])) := by
    simpa using spaced
  have behind : Meets (seq p (sequence [many blank, Pattern.text "from", many1 blank, quotedName]))
      ((spell zs ++ a.text) ++
        (last ++ ("from".toList ++ (gap' ++ (mark :: (name ++ mark :: more)))))) :=
    (passed zs last _ rfl (exported.right _)).meets (meets_from (exported.right _))
  have spelled : spell ((Atom.word "export", gap) ::
        (ts ++ (zs ++ [(a, last), (Atom.word "from", gap')]))) ++ (mark :: (name ++ mark :: more)) =
      "export".toList ++ (gap ++ (spell ts ++ ((spell zs ++ a.text) ++
        (last ++ ("from".toList ++ (gap' ++ (mark :: (name ++ mark :: more)))))))) := by
    simp [Atom.text]
  rw [spelled]
  cases zs with
  | nil => exact meets_export typing exported (fun t => apart t _ rfl) behind
  | cons z zs => exact meets_export typing exported (fun t => apart t _ rfl) behind

theorem passes_renamed {gap gap' last : List Char} {t : String} {ys : List (Atom × List Char)}
    (spaced : Spaced ((Atom.star, gap) :: (Atom.word "as", gap') :: (Atom.word t, last) :: ys))
    (plain : '$' ∉ t.toList) :
    Passes (seq (Pattern.text "*") (optional (sequence
        [many1 blank, Pattern.text "as", many1 blank, many1 (wordOr "")])))
      (spell [(Atom.star, gap), (Atom.word "as", gap')] ++ t.toList) := by
  have blanks := (spaced.fine (Atom.star, gap) (by simp)).2
  have blanks' := (spaced.fine (Atom.word "as", gap') (by simp)).2
  have word : IsWord t := (spaced.fine (Atom.word t, last) (by simp)).1
  have behind_star := passes_blank blanks (spaced.gap_ne_nil [] rfl)
  have behind_as := passes_blank blanks' (spaced.gap_ne_nil [(_, gap)] rfl)
  have spelled : spell [(Atom.star, gap), (Atom.word "as", gap')] ++ t.toList =
      "*".toList ++ (gap ++ ("as".toList ++ (gap' ++ t.toList))) := by
    simp [Atom.text]
  rw [spelled]
  exact .seq (.text "*") (.left (.seq behind_star
    (.seq (.text "as") (.seq behind_as (passes_alias word plain)))))

theorem passes_listed {gap : List Char} {zs ys : List (Atom × List Char)}
    (spaced : Spaced ((Atom.opening, gap) :: (zs ++ ys)))
    (listed : ∀ z ∈ zs, z.1.isListed = true) :
    Passes (sequence [Pattern.text "\x7b", many (noneOf "\x7d"), Pattern.text "\x7d"])
      (spell ((Atom.opening, gap) :: zs) ++ Atom.closing.text) := by
  have open_body : ∀ x ∈ gap ++ spell zs, x ∉ "\x7d".toList := by
    intro x there brace
    obtain rfl := List.mem_singleton.mp brace
    rcases List.mem_append.mp there with blank | body
    · exact blanks_closed (spaced.fine (Atom.opening, gap) (by simp)).2 blank
    · exact body_open listed (fun z hz => spaced.fine z (by simp [hz])) body
  have spelled : spell ((Atom.opening, gap) :: zs) ++ Atom.closing.text =
      "\x7b".toList ++ ((gap ++ spell zs) ++ "\x7d".toList) := by
    simp [Atom.text]
  rw [spelled]
  exact .seq (.text "\x7b")
    (.seq (.star fun x there => decide_eq_true (open_body x there)) (.text "\x7d"))

/-- An export from a module is met behind the start of a line. -/
theorem meets_scriptReexport {xs : List (Atom × List Char)} (front : IsReexport (xs.map Prod.fst))
    (spaced : Spaced (xs ++ [(Atom.name mark name, [])])) :
    ∃ p, scriptReexport = seq lineIndent p ∧
      Meets p (spell xs ++ (mark :: (name ++ mark :: more))) := by
  refine ⟨_, rfl, ?_⟩
  generalize atoms_eq : xs.map Prod.fst = atoms at front
  cases front with
  | everything typed =>
      refine meets_exported [] atoms_eq spaced (by rintro t _ ⟨⟩; rfl) ?_
      rintro zs last ys nothing -
      obtain rfl := List.map_eq_nil_iff.mp nothing
      exact .left (Passes.seq (u := "*".toList) (.text "*") .skipped)
  | @renamed typed t other other' plain =>
      refine meets_exported [.star, .word "as"] atoms_eq spaced
        (by rintro t _ ⟨⟩; rfl) ?_
      intro zs last ys renamed spaced
      obtain ⟨⟨_, gap⟩, ws, rfl, rfl, tail⟩ := List.map_eq_cons_iff.mp renamed
      obtain ⟨⟨_, gap'⟩, ws, rfl, rfl, nothing⟩ := List.map_eq_cons_iff.mp tail
      obtain rfl := List.map_eq_nil_iff.mp nothing
      exact .left (passes_renamed spaced plain)
  | @listed typed atoms listed =>
      refine meets_exported (.opening :: atoms) atoms_eq spaced
        (by rintro t _ ⟨⟩; rfl) ?_
      intro zs last ys braced spaced
      obtain ⟨⟨_, gap⟩, zs, rfl, rfl, rfl⟩ := List.map_eq_cons_iff.mp braced
      exact .right (passes_listed spaced fun z hz => listed _ (List.mem_map_of_mem hz))

end CommitSplit.Specifier
