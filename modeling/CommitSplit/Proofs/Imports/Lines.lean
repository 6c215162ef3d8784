import CommitSplit.Imports.Specifier
import CommitSplit.Proofs.Text.Lines
import CommitSplit.Proofs.Text.Pattern
import CommitSplit.Surface.Source.Span

/-!
# Searching line by line

The patterns of statements begin at the start of a line, with a word behind blanks. Their search
goes over a comment, and over what is left of a line, to the start of the next one.
-/

namespace CommitSplit.Source

/-- What holds of all characters of ASCII can be checked. -/
theorem forall_ascii (holds : Char → Prop) (all : ∀ n < 128, holds (Char.ofNat n)) (c : Char)
    (ascii : c.toNat < 128) : holds c := by
  rw [← Char.ofNat_toNat c]
  exact all _ ascii

theorem head?_any_iff {p : Char → Bool} {cs : List Char} :
    cs.head?.any p = true ↔ ∃ c rest, cs = c :: rest ∧ p c = true := by
  cases cs <;> simp

/-- What is followed by something of another kind is taken as a whole. -/
theorem span_append {p : Char → Bool} {cs rest : List Char} (all : ∀ c ∈ cs, p c = true)
    (stops : ∀ c ∈ rest.head?, p c = false) :
    (cs ++ rest).takeWhile p = cs ∧ (cs ++ rest).dropWhile p = rest := by
  rw [List.takeWhile_append_of_pos all, List.dropWhile_append_of_pos all]
  cases rest with
  | nil => simp
  | cons x rest => simp [stops x rfl]

def IsBlanks (cs : List Char) : Prop :=
  ∀ c ∈ cs, Text.isBlank c = true

instance : DecidablePred IsBlanks :=
  fun cs => List.decidableBAll (Text.isBlank · = true) cs

/-- A comment up to the end of its line. -/
inductive IsComment : List Char → Prop
  | line {cs ending : List Char} : (∀ c ∈ cs, isLineBreak c = false) → Text.IsLineEnd ending →
      IsComment ('/' :: '/' :: (cs ++ ending))

/-- What may stand behind a statement on its line. -/
inductive IsLineRest : List Char → Prop
  | feed : IsLineRest ['\n']
  | comment {cs : List Char} : IsComment cs → IsLineRest cs
  | blank {c : Char} {cs : List Char} : Text.isBlank c = true → c ≠ '\n' → IsLineRest cs →
      IsLineRest (c :: cs)
  | semicolon {cs : List Char} : IsLineRest cs → IsLineRest (';' :: cs)

variable {cs : List Char}

theorem isBlanks_of_isLineEnd (h : Text.IsLineEnd cs) : IsBlanks cs := by
  cases h <;> decide

/-- A line feed is the last character of a comment, and the only line feed in it. -/
theorem IsComment.exists_feed (h : IsComment cs) :
    ∃ u, cs = '/' :: (u ++ ['\n']) ∧ ∀ x ∈ u, x ≠ '\n' := by
  cases h with
  | @line cs ending one_line ends =>
      have within : ∀ x ∈ cs, x ≠ '\n' := by
        rintro x there rfl
        exact Bool.noConfusion (one_line _ there)
      cases ends with
      | feed => exact ⟨'/' :: cs, rfl, List.forall_mem_cons.mpr ⟨by decide, within⟩⟩
      | returnFeed =>
          refine ⟨'/' :: (cs ++ ['\r']), by simp, List.forall_mem_cons.mpr ⟨by decide, ?_⟩⟩
          exact List.forall_mem_append.mpr ⟨within, List.forall_mem_singleton.mpr (by decide)⟩

theorem IsLineRest.exists_feed (h : IsLineRest cs) :
    ∃ u, cs = u ++ ['\n'] ∧ ∀ x ∈ u, x ≠ '\n' := by
  induction h with
  | feed => exact ⟨[], rfl, nofun⟩
  | comment comment =>
      obtain ⟨u, rfl, one_line⟩ := comment.exists_feed
      exact ⟨'/' :: u, rfl, List.forall_mem_cons.mpr ⟨by decide, one_line⟩⟩
  | @blank c _ _ other _ ih =>
      obtain ⟨u, rfl, one_line⟩ := ih
      exact ⟨c :: u, rfl, List.forall_mem_cons.mpr ⟨other, one_line⟩⟩
  | semicolon _ ih =>
      obtain ⟨u, rfl, one_line⟩ := ih
      exact ⟨';' :: u, rfl, List.forall_mem_cons.mpr ⟨by decide, one_line⟩⟩

end CommitSplit.Source

namespace CommitSplit.Specifier

open Source (IsBlanks IsComment IsLineRest)
open Text (Capture Cursor Pattern)
open Text.Pattern

variable {c d : Cursor} {p q : Pattern} {u name more gap cs : List Char} {x : Char}

/-! ## Blanks -/

theorem passes_blank (blanks : IsBlanks gap) (some_blank : gap ≠ []) :
    Passes (many1 blank) gap := by
  obtain ⟨b, bs, rfl⟩ := List.exists_cons_of_ne_nil some_blank
  exact .plus blanks

/-- A text is met at the start of a line if it is met behind the blanks there. -/
theorem run_lineIndent_ne_nil (start : c.before = none ∨ c.before = some '\n')
    (blanks : IsBlanks gap) (behind : Meets p more) (text : c.rest = gap ++ more) :
    (seq lineIndent p).run c ≠ [] := by
  have indent : c.past gap ∈ lineIndent.run c := by
    refine mem_run_seq.mpr ⟨c, ?_, Passes.star blanks c more text⟩
    rw [run, if_pos start]
    exact List.mem_singleton_self c
  obtain ⟨d, hd⟩ := List.exists_mem_of_ne_nil _ (behind _ (Cursor.rest_past text))
  exact List.ne_nil_of_mem (mem_run_seq.mpr ⟨_, indent, hd⟩)

theorem mem_run_lineIndent (h : d ∈ lineIndent.run c) :
    (c.before = none ∨ c.before = some '\n') ∧
      ∃ u, IsBlanks u ∧ c.rest = u ++ d.rest ∧ d = c.past u := by
  obtain ⟨e, start, indent⟩ := mem_run_seq.mp h
  rw [run] at start
  split at start
  · obtain rfl := List.mem_singleton.mp start
    obtain ⟨u, text, rfl, blank⟩ := mem_run_star_one indent
    exact ⟨‹_›, u, blank, text, rfl⟩
  · cases start

/-- Where the blanks end is told by the first character that is none. -/
theorem eq_of_isBlanks_append {v v' : List Char} {x x' : Char} (blanks : IsBlanks u)
    (blanks' : IsBlanks gap) (plain : Text.isBlank x = false) (plain' : Text.isBlank x' = false)
    (same : u ++ x :: v = gap ++ x' :: v') : u = gap ∧ x = x' ∧ v = v' := by
  refine Text.eq_of_append_cons_eq (fun y => Text.isBlank y = false) (fun y there => ?_)
    (fun y there => ?_) plain plain' same
  · rw [blanks y there]
    decide
  · rw [blanks' y there]
    decide

/-! ## Patterns of lines -/

/-- Every match begins with a character of some kind. -/
def Begins (holds : Char → Prop) (p : Pattern) : Prop :=
  ∀ c d, d ∈ p.run c → ∃ x rest, c.rest = x :: rest ∧ holds x

theorem begins_text {holds : Char → Prop} {s : String} {word : List Char}
    (spelled : s.toList = x :: word) (here : holds x) :
    Begins holds (seq (Pattern.text s) q) := by
  intro c d h
  obtain ⟨e, keyword, -⟩ := mem_run_seq.mp h
  obtain ⟨text, -⟩ := mem_run_text keyword
  rw [spelled] at text
  exact ⟨x, _, text, here⟩

/-- A pattern whose matches begin at the start of a line, with a word behind blanks. -/
structure BeginsLines (p : Pattern) : Prop where
  line : ∀ c d, d ∈ p.run c → c.before = none ∨ c.before = some '\n'
  word : ∀ c d gap rest, d ∈ p.run c → c.rest = gap ++ '/' :: rest → ¬IsBlanks gap

theorem beginsLines_of_lineIndent (begins : Begins (fun x => Text.isBlank x = false ∧ x ≠ '/') q) :
    BeginsLines (seq lineIndent q) where
  line := by
    intro c d h
    obtain ⟨e, indent, -⟩ := mem_run_seq.mp h
    exact (mem_run_lineIndent indent).1
  word := by
    intro c d gap rest h text blanks
    obtain ⟨e, indent, h⟩ := mem_run_seq.mp h
    obtain ⟨-, u, blanks', text', rfl⟩ := mem_run_lineIndent indent
    obtain ⟨x, behind, begun, plain, other⟩ := begins _ d h
    rw [begun, text] at text'
    obtain ⟨-, same, -⟩ := eq_of_isBlanks_append blanks blanks' (by decide) plain text'
    exact other same.symm

namespace BeginsLines

/-- Within a line nothing begins. -/
theorem run_eq_nil (h : BeginsLines p) (before : c.before = some x) (inner : x ≠ '\n') :
    p.run c = [] := by
  rw [List.eq_nil_iff_forall_not_mem]
  intro d there
  rcases h.line c d there with start | feed
  · rw [start] at before
    cases before
  · rw [feed] at before
    exact inner (Option.some.inj before).symm

/-- A search goes on to the end of the line. -/
theorem found_past_line (h : BeginsLines p) (before : c.before = some x) (inner : x ≠ '\n')
    (within : ∀ y ∈ u, y ≠ '\n') (text : c.rest = u ++ more) :
    p.found c = p.found (c.past u) ∧ ∃ y, (c.past u).before = some y ∧ y ≠ '\n' := by
  have stays {v : List Char} (all_within : ∀ y ∈ v, y ≠ '\n') :
      ∃ y, (c.past v).before = some y ∧ y ≠ '\n' := by
    rcases v.eq_nil_or_concat with rfl | ⟨v, y, rfl⟩
    · exact ⟨x, by rwa [Cursor.past_nil], inner⟩
    · exact ⟨y, by simp [Cursor.past], all_within y (by simp)⟩
  refine ⟨found_past (fun v w split _ => ?_) text, stays within⟩
  obtain ⟨y, before, inner⟩ := stays fun y there => within y (split ▸ List.mem_append_left w there)
  exact h.run_eq_nil before inner

/-- A line feed ends the line. -/
theorem found_past_feed (h : BeginsLines p) (before : c.before = some x) (inner : x ≠ '\n')
    (within : ∀ y ∈ u, y ≠ '\n') (text : c.rest = u ++ '\n' :: more) :
    p.found c = p.found (c.past (u ++ ['\n'])) := by
  obtain ⟨same, y, before, inner⟩ := h.found_past_line before inner within text
  rw [same, found_of_run_eq_nil (h.run_eq_nil before inner) (Cursor.rest_past text),
    Cursor.past_past]

theorem found_past_lineRest (h : BeginsLines p) (before : c.before = some x) (inner : x ≠ '\n')
    (behind : IsLineRest cs) (text : c.rest = cs ++ more) : p.found c = p.found (c.past cs) := by
  obtain ⟨u, rfl, one_line⟩ := behind.exists_feed
  rw [List.append_assoc, List.singleton_append] at text
  exact h.found_past_feed before inner one_line text

/-- Nothing is found in the blanks in front of a slash. -/
theorem found_past_blanks (h : BeginsLines p) (blanks : IsBlanks gap)
    (text : c.rest = gap ++ '/' :: more) : p.found c = p.found (c.past gap) := by
  refine found_past (fun v w split _ => List.eq_nil_iff_forall_not_mem.mpr fun d there => ?_) text
  subst split
  rw [List.append_assoc] at text
  exact h.word _ d w more there (Cursor.rest_past text)
    fun x there => blanks x (List.mem_append_right v there)

theorem found_past_comment (h : BeginsLines p) (blanks : IsBlanks gap) (comment : IsComment cs)
    (text : c.rest = gap ++ (cs ++ more)) : p.found c = p.found (c.past (gap ++ cs)) := by
  obtain ⟨u, rfl, one_line⟩ := comment.exists_feed
  rw [List.cons_append, List.append_assoc, List.singleton_append] at text
  have slash : (c.past gap).rest = '/' :: (u ++ '\n' :: more) := Cursor.rest_past text
  have nothing : p.run (c.past gap) = [] := by
    rw [List.eq_nil_iff_forall_not_mem]
    exact fun d there => h.word _ d [] _ there slash nofun
  have before : ((c.past gap).past ['/']).before = some '/' := by simp [Cursor.past]
  have behind : ((c.past gap).past ['/']).rest = u ++ '\n' :: more := by
    refine Cursor.rest_past ?_
    rw [slash, List.singleton_append]
  rw [h.found_past_blanks blanks text, found_of_run_eq_nil nothing slash,
    h.found_past_feed before (by decide) one_line behind, Cursor.past_past, Cursor.past_past]
  rfl

end BeginsLines

theorem before_past_lineRest (c : Cursor) (u : List Char) (behind : IsLineRest cs) :
    (c.past (u ++ cs)).before = some '\n' := by
  obtain ⟨v, rfl, -⟩ := behind.exists_feed
  rw [← List.append_assoc, Cursor.before_past_append_singleton]

/-- A search finds a name in its first group. -/
def Finds (p : Pattern) (c : Cursor) (name : List Char) : Prop :=
  ∃ d ∈ p.found c, ∃ capture, d.capture? 1 = some capture ∧ capture.text = name

theorem Finds.of_subset {c' : Cursor} (found : Finds p c' name) (subset : p.found c' ⊆ p.found c) :
    Finds p c name := by
  obtain ⟨d, there, capture⟩ := found
  exact ⟨d, subset there, capture⟩

end CommitSplit.Specifier
