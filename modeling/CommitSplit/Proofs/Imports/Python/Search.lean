import CommitSplit.Proofs.Imports.Python.Lines
import CommitSplit.Proofs.Text.Preference

/-!
# Searching for Python imports

A search for statements that begin with a word goes over every text in which no line could begin
one. From the start of a line it goes over the blanks, however many lines they take.
-/

namespace CommitSplit.Python

open Source (IsBlanks)
open Specifier
open Text (Capture Cursor Pattern)
open Text.Pattern

variable {c d : Cursor} {p q : Pattern} {s : String}
  {word line gap u v w more rest : List Char} {x : Char} {captures : List (Nat × Capture)}

/-- The start of a line. -/
def IsLineStart (c : Cursor) : Prop :=
  c.before = none ∨ c.before = some '\n'

/-- A place within a line. -/
def IsInner (c : Cursor) : Prop :=
  ∃ x, c.before = some x ∧ x ≠ '\n'

theorem isLineStart_of_not_isInner (outer : ¬IsInner c) : IsLineStart c := by
  unfold IsInner at outer
  cases before : c.before with
  | none => exact .inl before
  | some x => exact .inr (by simpa [before] using outer)

/-- The pattern of a statement that begins with a word. -/
def statement (s : String) (q : Pattern) : Pattern :=
  seq lineIndent (seq (Pattern.text s) (seq (many1 blank) q))

/-! ## Where a match begins -/

/-- The match at the start of a line is the one behind its blanks. -/
theorem run_lineIndent_seq (start : IsLineStart c) (begins : Begins (Text.isBlank · = false) q) :
    (seq lineIndent q).run c = q.run (c.past (c.rest.takeWhile Text.isBlank)) := by
  obtain ⟨earlier, ends, stops⟩ := run_star_one Text.isBlank c
  have at_start : Pattern.lineStart.run c = [c] := if_pos start
  have indent : lineIndent.run c = c.past (c.rest.takeWhile Text.isBlank) :: earlier := by
    rw [← ends, lineIndent, run, at_start, List.flatMap_singleton]
    rfl
  have nothing : earlier.flatMap q.run = [] := by
    rw [List.flatMap_eq_nil_iff]
    intro e there
    rw [List.eq_nil_iff_forall_not_mem]
    intro d matched
    obtain ⟨x, rest, text, blank⟩ := stops e there
    obtain ⟨y, rest', text', plain⟩ := begins e d matched
    obtain ⟨rfl, -⟩ := List.cons.inj (text.symm.trans text')
    rw [blank] at plain
    cases plain
  rw [run, indent, List.flatMap_cons, nothing, List.append_nil]

/-- A match goes on over blanks at the start of a line, its word and blanks again. -/
theorem mem_run_statement (h : d ∈ (statement s q).run c) :
    IsLineStart c ∧ ∃ gap gap' rest, IsBlanks gap ∧ IsBlanks gap' ∧ gap' ≠ [] ∧
      c.rest = gap ++ (s.toList ++ (gap' ++ rest)) ∧
      d ∈ q.run (c.past (gap ++ (s.toList ++ gap'))) := by
  obtain ⟨c₁, indent, h⟩ := mem_run_seq.mp h
  obtain ⟨c₂, keyword, h⟩ := mem_run_seq.mp h
  obtain ⟨c₃, spaced, h⟩ := mem_run_seq.mp h
  obtain ⟨start, gap, blanks, text, rfl⟩ := mem_run_lineIndent indent
  obtain ⟨text', rfl⟩ := mem_run_text keyword
  obtain ⟨gap', some_gap, text'', rfl, blanks'⟩ := mem_run_plus spaced
  rw [Cursor.past_past, Cursor.past_past] at h
  rw [text', text''] at text
  exact ⟨start, gap, gap', _, blanks, blanks', some_gap, text, by simpa using h⟩

theorem opens_of_mem_run (h : d ∈ (statement s q).run c) : Opens s.toList c.rest := by
  obtain ⟨-, gap, gap', rest, blanks, blanks', some_gap, text, -⟩ := mem_run_statement h
  obtain ⟨b, gap', rfl⟩ := List.exists_cons_of_ne_nil some_gap
  exact ⟨gap, b, gap' ++ rest, blanks, blanks' b List.mem_cons_self, text⟩

theorem run_statement_of_isInner (inner : IsInner c) : (statement s q).run c = [] := by
  rw [List.eq_nil_iff_forall_not_mem]
  intro d h
  obtain ⟨x, before, other⟩ := inner
  rcases (mem_run_statement h).1 with start | feed
  · rw [start] at before
    cases before
  · rw [feed] at before
    exact other (Option.some.inj before).symm

theorem run_statement_of_not_opens (closed : ¬Opens s.toList c.rest) :
    (statement s q).run c = [] := by
  rw [List.eq_nil_iff_forall_not_mem]
  exact fun d h => closed (opens_of_mem_run h)

/-! ## Texts without a match -/

section Quiet

variable (there : s.toList ∈ statementWords) (quiet : Quiet u more) (text : c.rest = u ++ more)
  (nothing : (statement s q).run c = [])

include there quiet text nothing

/-- Nothing is found at any place up to the end of a quiet text. -/
theorem run_past_of_quiet (split : u = v ++ w) : (statement s q).run (c.past v) = [] := by
  rcases List.eq_nil_or_concat' v with rfl | ⟨front, x, rfl⟩
  · rwa [Cursor.past_nil]
  · by_cases feed : x = '\n'
    · subst feed
      have behind : (c.past (front ++ ['\n'])).rest = w ++ more := by
        refine Cursor.rest_past ?_
        rw [text, split, List.append_assoc]
      refine run_statement_of_not_opens ?_
      rw [behind]
      rw [split, List.append_assoc] at quiet
      exact quiet.isClosed _ there
    · exact run_statement_of_isInner ⟨x, Cursor.before_past_append_singleton c front x, feed⟩

/-- The search goes on to the next line. -/
theorem found_past_line :
    (statement s q).found c = (statement s q).found (c.past (u ++ more.take 1)) := by
  have here := run_past_of_quiet (q := q) there quiet text nothing (List.append_nil u).symm
  rw [found_past (fun _ _ split _ => run_past_of_quiet there quiet text nothing split) text]
  cases more with
  | nil => rw [List.take_nil, List.append_nil]
  | cons x rest =>
      rw [found_of_run_eq_nil here (Cursor.rest_past text), Cursor.past_past]
      rfl

end Quiet

theorem found_at_end (nothing : c.rest = []) : (statement s q).found c = [] := by
  have closed : ¬Opens s.toList c.rest := by
    rintro ⟨gap, b, rest, -, -, text⟩
    simp [nothing] at text
  rw [found, nothing, findFrom, match?, run_statement_of_not_opens closed]
  simp [Cursor.next?, nothing]

theorem offset_lt_of_mem_run (h : d ∈ (statement s q).run c) : c.offset < d.offset := by
  obtain ⟨-, gap, gap', rest, -, -, some_gap, -, further⟩ := mem_run_statement h
  obtain ⟨u, -, offset⟩ := relates_advances q _ d further
  have some_char := List.length_pos_iff.mpr some_gap
  rw [offset, Cursor.offset_past, List.length_append, List.length_append]
  omega

/-- From all starts of lines in some blanks the same matches are seen. -/
theorem run_past_blanks (there : s.toList ∈ statementWords) (blanks : IsBlanks gap)
    (text : c.rest = gap ++ more) (split : gap = v ++ u) (start : IsLineStart (c.past v)) :
    (statement s q).run (c.past v) = (seq (Pattern.text s) (seq (many1 blank) q)).run
      (c.past (gap ++ more.takeWhile Text.isBlank)) := by
  have begins : Begins (Text.isBlank · = false) (seq (Pattern.text s) (seq (many1 blank) q)) := by
    obtain ⟨x, word, spelled, plain⟩ := exists_cons_of_mem_statementWords there
    exact begins_text spelled plain
  have rest : (c.past v).rest = u ++ more := by
    refine Cursor.rest_past ?_
    rw [text, split, List.append_assoc]
  have blanks' : ∀ x ∈ u, Text.isBlank x = true :=
    fun x there => blanks x (split ▸ List.mem_append_right v there)
  rw [statement, run_lineIndent_seq start begins, rest, List.takeWhile_append_of_pos blanks',
    Cursor.past_past, split, List.append_assoc]

/-- The search goes over lines of blanks. -/
theorem found_past_blanks (there : s.toList ∈ statementWords) (start : IsLineStart c)
    (blanks : IsBlanks gap) (feed : gap.getLast? = some '\n') (text : c.rest = gap ++ more) :
    (statement s q).found c = (statement s q).found (c.past gap) := by
  have seen {v w : List Char} := run_past_blanks (q := q) (v := v) (u := w) there blanks text
  have here := seen (List.nil_append gap).symm (by rwa [Cursor.past_nil])
  rw [Cursor.past_nil] at here
  have start' : IsLineStart (c.past gap) := by
    obtain ⟨front, rfl⟩ := List.getLast?_eq_some_iff.mp feed
    exact .inr (Cursor.before_past_append_singleton c front '\n')
  have behind := seen (List.append_nil gap).symm start'
  cases preferred : (statement s q).match? c with
  | none =>
      have nothing := match?_eq_none_iff.mp preferred
      refine found_past (fun v w split _ => ?_) text
      by_cases inner : IsInner (c.past v)
      · exact run_statement_of_isInner inner
      · rw [seen split (isLineStart_of_not_isInner inner), ← here, nothing]
  | some d =>
      have preferred' : (statement s q).match? (c.past gap) = some d := by
        rw [match?, behind, ← here]
        exact preferred
      rw [found_of_match? preferred (offset_lt_of_mem_run (mem_run_of_match? preferred)),
        found_of_match? preferred' (offset_lt_of_mem_run (mem_run_of_match? preferred'))]

/-! ## What a match takes in -/

/-- The preferred match takes in the front of a line, up to a place within a line. -/
def TakesIn (p : Pattern) (c : Cursor) (line : List Char) (captures : List (Nat × Capture)) :
    Prop :=
  ∃ w x left, line = (w ++ [x]) ++ left ∧ x ≠ '\n' ∧
    p.match? c = some { c.past (w ++ [x]) with captures := captures }

theorem takesIn_of_match? (some_char : u ≠ []) (one_line : '\n' ∉ u)
    (split : ∃ left, line = v ++ (u ++ left))
    (matched : p.match? c = some { c.past (v ++ u) with captures := captures }) :
    TakesIn p c line captures := by
  obtain ⟨left, rfl⟩ := split
  obtain ⟨u, x, rfl⟩ := (List.eq_nil_or_concat' u).resolve_left some_char
  refine ⟨v ++ u, x, left, by simp, ?_, by simpa using matched⟩
  rintro rfl
  exact one_line (by simp)

/-- Behind a match the search goes on with the next line. -/
theorem found_of_takesIn (there : s.toList ∈ statementWords) (bare : c.captures = [])
    (quiet : Quiet line more) (text : c.rest = line ++ more)
    (takes : TakesIn (statement s q) c line captures) :
    ∃ d, d.captures = captures ∧ (statement s q).found c =
      d :: (statement s q).found (c.past (line ++ more.take 1)) := by
  obtain ⟨w, x, left, rfl, other, matched⟩ := takes
  refine ⟨{ c.past (w ++ [x]) with captures := captures }, rfl, ?_⟩
  have longer : c.offset < (c.past (w ++ [x])).offset := by
    simp
  have reset : ({ c.past (w ++ [x]) with captures := [] } : Cursor) = c.past (w ++ [x]) := by
    rw [← bare]
    rfl
  have inner : (statement s q).run (c.past (w ++ [x])) = [] :=
    run_statement_of_isInner ⟨x, Cursor.before_past_append_singleton c w x, other⟩
  have behind : (c.past (w ++ [x])).rest = left ++ more := by
    refine Cursor.rest_past ?_
    rw [text, List.append_assoc]
  rw [found_of_match? matched longer, reset,
    found_past_line there (quiet_append.mp quiet).2 behind inner, Cursor.past_past,
    ← List.append_assoc]

end CommitSplit.Python
