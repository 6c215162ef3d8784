import CommitSplit.Proofs.Imports.Lines

/-!
# Searching for statements

The patterns of imports and of exports from a module have no quotation mark in front of the module,
so a match ends behind the first quoted name, wherever it began in front of that. What such a
pattern leaves open is only whether it matches. A search that comes to the front of a statement goes
on behind the name of its module in any case.
-/

namespace CommitSplit.Specifier

open Text (Capture Cursor Pattern)
open Text.Pattern

variable {c d : Cursor} {p : Pattern} {pre u v w name more content : List Char}

/-! ## Quoted names -/

/-- A text without quotation marks in which every brace that opens has one behind it that closes. -/
structure Inside (pre : List Char) : Prop where
  unquoted : ∀ x ∈ pre, x ∉ quotes.toList
  closes : ∀ u v, pre = u ++ '\x7b' :: v → '\x7d' ∈ v

theorem Inside.of_append (h : Inside (u ++ v)) : Inside v where
  unquoted x there := h.unquoted x (List.mem_append_right u there)
  closes w w' split := h.closes (u ++ w) w' (by rw [split, List.append_assoc])

/-- In front of a quotation mark a match does not reach behind it. -/
def StaysInside (c d : Cursor) : Prop :=
  ∀ pre mark rest, c.rest = pre ++ mark :: rest → mark ∈ quotes.toList → Inside pre →
    ∃ u v, pre = u ++ v ∧ d = c.past u

theorem StaysInside.refl (c : Cursor) : StaysInside c c :=
  fun pre _ _ _ _ _ => ⟨[], pre, rfl, (Cursor.past_nil c).symm⟩

theorem StaysInside.trans {a b c : Cursor} (h : StaysInside a b) (h' : StaysInside b c) :
    StaysInside a c := by
  intro pre mark rest text isMark inside
  obtain ⟨u, v, rfl, rfl⟩ := h pre mark rest text isMark inside
  rw [List.append_assoc] at text
  obtain ⟨u', v', rfl, rfl⟩ :=
    h' v mark rest (Cursor.rest_past text) isMark inside.of_append
  exact ⟨u ++ u', v', by rw [List.append_assoc], Cursor.past_past a u u'⟩

theorem staysInside_one {accepts : Char → Bool}
    (unquoted : quotes.toList.any accepts = false) : Relates StaysInside (one accepts) := by
  intro c d h pre mark rest text isMark inside
  obtain ⟨x, behind, text', accepted, rfl⟩ := mem_run_one h
  rw [text'] at text
  cases pre with
  | nil =>
      obtain ⟨rfl, -⟩ := List.cons.inj text
      exact absurd accepted (List.any_eq_false.mp unquoted x isMark)
  | cons y pre =>
      obtain ⟨rfl, -⟩ := List.cons.inj text
      exact ⟨[x], pre, rfl, rfl⟩

theorem staysInside_text {s : String} (unquoted : s.toList.any (· ∈ quotes.toList) = false) :
    Relates StaysInside (Pattern.text s) := by
  refine Relates.sequence .refl (fun _ _ _ => .trans) fun p there => ?_
  obtain ⟨x, hx, rfl⟩ := List.mem_map.mp there
  refine staysInside_one (List.any_eq_false.mpr fun y isMark same => ?_)
  obtain rfl := of_decide_eq_true same
  exact List.any_eq_false.mp unquoted y hx (decide_eq_true isMark)

/-- A list in braces ends at the first brace that closes. -/
theorem staysInside_braces :
    Relates StaysInside
      (sequence [Pattern.text "\x7b", many (noneOf "\x7d"), Pattern.text "\x7d"]) := by
  intro c d h pre mark rest text isMark inside
  obtain ⟨e, first, h⟩ := mem_run_seq.mp h
  obtain ⟨f, body, last⟩ := mem_run_seq.mp h
  obtain ⟨text₁, rfl⟩ := mem_run_text first
  obtain ⟨u, text₂, rfl, listed⟩ := mem_run_star_one body
  obtain ⟨text₃, rfl⟩ := mem_run_text last
  have open_body : ∀ x ∈ u, ¬x = '\x7d' := by simpa [noneOf] using listed
  generalize ((((c.past _).past u).past _).rest) = behind at text₃
  rw [text₁, text₂, text₃] at text
  change '\x7b' :: (u ++ '\x7d' :: behind) = _ at text
  cases pre with
  | nil =>
      rw [← (List.cons.inj text).1] at isMark
      exact absurd isMark (by decide)
  | cons y pre =>
      obtain ⟨rfl, inner⟩ := List.cons.inj text
      obtain ⟨w, v, rfl, first⟩ := List.eq_append_cons_of_mem (inside.closes [] pre rfl)
      rw [List.append_eq, List.append_assoc, List.cons_append] at inner
      obtain ⟨rfl, -, -⟩ := Text.eq_of_append_cons_eq (· = '\x7d') open_body
        (fun x there same => first (same ▸ there)) rfl rfl inner
      refine ⟨'\x7b' :: (u ++ ['\x7d']), v, by simp, ?_⟩
      rw [Cursor.past_past, Cursor.past_past]
      exact congrArg c.past (by simp)

/-- What stands in front of the mark, the two marks and what stands between them. -/
theorem mem_run_quotedName (h : d ∈ quotedName.run c) :
    ∃ mark name mark', c.rest = mark :: (name ++ mark' :: d.rest) ∧
      mark ∈ quotes.toList ∧ mark' ∈ quotes.toList ∧ (∀ x ∈ name, x ∉ quotes.toList) ∧
      d = { c.past (mark :: (name ++ [mark'])) with
        captures := (1, ⟨c.offset + 1, name⟩) :: c.captures } := by
  obtain ⟨e, first, h⟩ := mem_run_seq.mp h
  obtain ⟨g, grouped, last⟩ := mem_run_seq.mp h
  obtain ⟨mark, rest₁, text₁, isMark, rfl⟩ := mem_run_one first
  obtain ⟨f, matched, rfl⟩ := List.mem_map.mp grouped
  obtain ⟨name, -, text₂, rfl, plain⟩ := mem_run_plus matched
  obtain ⟨mark', rest₃, text₃, isMark', rfl⟩ := mem_run_one last
  generalize last_rest : Cursor.rest (Cursor.past _ [mark']) = behind
  obtain rfl : rest₃ = behind := by rw [← last_rest, Cursor.rest_past (u := [mark']) text₃]
  have middle : ((c.past [mark]).past name).rest = mark' :: rest₃ := text₃
  have taken : (c.past [mark]).rest.take
      (((c.past [mark]).past name).offset - (c.past [mark]).offset) = name := by
    rw [text₂, Cursor.offset_past, Nat.add_sub_cancel_left, List.take_left]
  have text : c.rest = mark :: (name ++ mark' :: rest₃) := by
    rw [text₁, ← middle, ← text₂, Cursor.rest_past (u := [mark]) text₁]
  have split : c.past (mark :: (name ++ [mark'])) =
      ((c.past [mark]).past name).past [mark'] := by
    rw [Cursor.past_past, Cursor.past_past]
    rfl
  refine ⟨mark, name, mark', text, by simpa [oneOf] using isMark, by simpa [oneOf] using isMark',
    by simpa [noneOf] using plain, ?_⟩
  rw [split]
  dsimp only
  rw [taken]
  rfl

/-! ## Patterns of statements -/

/-- The cursor behind a quoted name that a text stands in front of, with the name as its capture. -/
def behindName (c : Cursor) (pre : List Char) (mark : Char) (name : List Char) (mark' : Char) :
    Cursor :=
  { c.past (pre ++ mark :: (name ++ [mark'])) with
    captures := (1, ⟨c.offset + pre.length + 1, name⟩) :: c.captures }

/-- A pattern whose matches end behind the first quoted name. -/
def EndsBehindName (p : Pattern) : Prop :=
  ∀ c d pre mark name mark' rest, d ∈ p.run c → c.rest = pre ++ mark :: (name ++ mark' :: rest) →
    mark ∈ quotes.toList → mark' ∈ quotes.toList → Inside pre → (∀ x ∈ name, x ∉ quotes.toList) →
      d = behindName c pre mark name mark'

theorem endsBehindName_quotedName : EndsBehindName quotedName := by
  intro c d pre mark name mark' rest h text isMark isMark' inside plain
  obtain ⟨first, found, last, text', isFirst, isLast, plain', rfl⟩ := mem_run_quotedName h
  cases pre with
  | cons x pre =>
      rw [text] at text'
      rw [← (List.cons.inj text').1] at isFirst
      exact absurd isFirst (inside.unquoted x List.mem_cons_self)
  | nil =>
      obtain ⟨rfl, same⟩ := List.cons.inj (text.symm.trans text')
      obtain ⟨rfl, rfl, -⟩ := Text.eq_of_append_cons_eq (· ∈ quotes.toList) plain plain'
        isMark' isLast same
      rfl

theorem EndsBehindName.seq {q : Pattern} (front : Relates StaysInside p) (h : EndsBehindName q) :
    EndsBehindName (seq p q) := by
  intro c d pre mark name mark' rest hd text isMark isMark' inside plain
  obtain ⟨e, first, hd⟩ := mem_run_seq.mp hd
  obtain ⟨u, v, rfl, rfl⟩ := front c e first pre mark _ text isMark inside
  rw [List.append_assoc] at text
  rw [h _ d v mark name mark' rest hd (Cursor.rest_past text) isMark isMark' inside.of_append plain,
    behindName, behindName, Cursor.past_past, Cursor.offset_past, Cursor.captures_past]
  simp [Nat.add_assoc]

theorem staysInside_many {accepts : Char → Bool} (unquoted : quotes.toList.any accepts = false) :
    Relates StaysInside (many (one accepts)) :=
  .star .refl (fun _ _ _ => .trans) (staysInside_one unquoted)

theorem staysInside_many1 {accepts : Char → Bool} (unquoted : quotes.toList.any accepts = false) :
    Relates StaysInside (many1 (one accepts)) :=
  .seq (fun _ _ _ => .trans) (staysInside_one unquoted) (staysInside_many unquoted)

theorem staysInside_optional (h : Relates StaysInside p) : Relates StaysInside (optional p) :=
  .alt h (.empty .refl)

/-- A pattern of statements: a match ends behind the first quoted name. -/
structure FindsStatements (p : Pattern) : Prop extends BeginsLines p where
  ends : EndsBehindName p

theorem findsStatements_of_lineIndent {s : String} {x : Char} {word : List Char} {q : Pattern}
    (spelled : s.toList = x :: word) (plain : Text.isBlank x = false ∧ x ≠ '/')
    (unquoted : s.toList.any (· ∈ quotes.toList) = false) (ends : EndsBehindName q) :
    FindsStatements (seq lineIndent (seq (Pattern.text s) q)) where
  toBeginsLines := beginsLines_of_lineIndent (begins_text spelled plain)
  ends := by
    refine .seq (.seq (fun _ _ _ => .trans) (.lineStart .refl) (staysInside_many (by decide))) ?_
    exact .seq (staysInside_text unquoted) ends

theorem findsStatements_scriptImport : FindsStatements scriptImport := by
  have blanks : Relates StaysInside (many1 blank) := staysInside_many1 (by decide)
  refine findsStatements_of_lineIndent (s := "import") rfl (by decide) (by decide) ?_
  refine .seq blanks (.seq (staysInside_optional ?_) endsBehindName_quotedName)
  have clause : Relates StaysInside (few1 (one fun c =>
      Text.isWordChar c || Text.isBlank c || c ∈ "*\x7b\x7d,$".toList)) :=
    .seq (fun _ _ _ => .trans) (staysInside_one (by decide))
      (.star .refl (fun _ _ _ => .trans) (staysInside_one (by decide)))
  refine .sequence .refl (fun _ _ _ => .trans) fun p there => ?_
  simp only [List.mem_cons, List.not_mem_nil, or_false] at there
  rcases there with rfl | rfl | rfl | rfl
  · exact clause
  · exact blanks
  · exact staysInside_text (by decide)
  · exact blanks

theorem findsStatements_scriptReexport : FindsStatements scriptReexport := by
  have blanks : Relates StaysInside (many1 blank) := staysInside_many1 (by decide)
  refine findsStatements_of_lineIndent (s := "export") rfl (by decide) (by decide) ?_
  refine .seq blanks (.seq (staysInside_optional ?_) (.seq ?_ (.seq (staysInside_many (by decide))
    (.seq (staysInside_text (by decide)) (.seq blanks endsBehindName_quotedName)))))
  · exact .seq (fun _ _ _ => .trans) (staysInside_text (by decide)) blanks
  · refine .alt (.seq (fun _ _ _ => .trans) (staysInside_text (by decide))
      (staysInside_optional (.sequence .refl (fun _ _ _ => .trans) fun p there => ?_)))
      staysInside_braces
    simp only [List.mem_cons, List.not_mem_nil, or_false] at there
    rcases there with rfl | rfl | rfl | rfl
    · exact blanks
    · exact staysInside_text (by decide)
    · exact blanks
    · exact staysInside_many1 (by decide)

/-! ## Searching line by line -/

namespace FindsStatements

variable {mark mark' : Char}

/-- Where a pattern matches it finds the quoted name and goes on behind it. -/
theorem found_of_run_ne_nil (h : FindsStatements p) (bare : c.captures = [])
    (matched : p.run c ≠ []) (text : c.rest = pre ++ mark :: (name ++ mark' :: more))
    (isMark : mark ∈ quotes.toList) (isMark' : mark' ∈ quotes.toList) (inside : Inside pre)
    (plain : ∀ x ∈ name, x ∉ quotes.toList) :
    p.found c = behindName c pre mark name mark' ::
      p.found (c.past (pre ++ mark :: (name ++ [mark']))) := by
  obtain ⟨d, ds, all⟩ := List.exists_cons_of_ne_nil matched
  obtain rfl := h.ends c d pre mark name mark' more (by rw [all]; exact List.mem_cons_self) text
    isMark isMark' inside plain
  have first : p.match? c = some (behindName c pre mark name mark') := by
    rw [match?, all, List.head?_cons]
  have further : c.offset < (behindName c pre mark name mark').offset := by
    rw [behindName, Cursor.offset_past, List.length_append, List.length_cons]
    omega
  rw [found_of_match? first further]
  have reset : { behindName c pre mark name mark' with captures := [] } =
      c.past (pre ++ mark :: (name ++ [mark'])) := by
    rw [behindName, ← bare]
    rfl
  rw [reset]

/-- A search goes on behind a quoted name, whether it finds the name or not. -/
theorem found_past_subset (h : FindsStatements p) (bare : c.captures = [])
    (text : c.rest = pre ++ mark :: (name ++ mark' :: more)) (isMark : mark ∈ quotes.toList)
    (isMark' : mark' ∈ quotes.toList) (inside : Inside pre)
    (plain : ∀ x ∈ name, x ∉ quotes.toList ∧ x ≠ '\n') :
    p.found (c.past (pre ++ mark :: (name ++ [mark']))) ⊆ p.found c := by
  have unlike {y : Char} (isMark : y ∈ quotes.toList) : y ≠ '\n' :=
    ne_of_mem_of_not_mem isMark (by decide)
  induction pre generalizing c with
  | nil =>
      by_cases nothing : p.run c = []
      · have within : ∀ y ∈ name ++ [mark'], y ≠ '\n' := by
          intro y there
          rcases List.mem_append.mp there with there | there
          · exact (plain y there).2
          · exact List.mem_singleton.mp there ▸ unlike isMark'
        have text' : (c.past [mark]).rest = (name ++ [mark']) ++ more := by
          rw [Cursor.rest_past (u := [mark]) text]
          simp
        rw [found_of_run_eq_nil nothing text,
          (h.found_past_line (x := mark) (by simp [Cursor.past]) (unlike isMark) within text').1,
          Cursor.past_past]
        exact List.Subset.refl _
      · rw [h.found_of_run_ne_nil bare nothing text isMark isMark' inside
          fun x there => (plain x there).1]
        exact List.subset_cons_self _ _
  | cons y pre ih =>
      by_cases nothing : p.run c = []
      · rw [found_of_run_eq_nil nothing text]
        have rest := ih (c := c.past [y]) bare (Cursor.rest_past (u := [y]) text)
          (Inside.of_append (u := [y]) inside)
        rwa [Cursor.past_past] at rest
      · rw [h.found_of_run_ne_nil bare nothing text isMark isMark' inside
          fun x there => (plain x there).1]
        exact List.subset_cons_self _ _

end FindsStatements

end CommitSplit.Specifier
