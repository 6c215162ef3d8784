import CommitSplit.Proofs.Imports.Statements
import CommitSplit.Proofs.Table

/-!
# Searching a header

A search for imports, and one for exports from a module, goes over the header of a script line by
line. Every statement is found by one of them, so the name of its module is among the specifiers of
the script.
-/

namespace CommitSplit.Specifier

open Text (Capture Cursor Pattern)
open Text.Pattern

variable {c d : Cursor} {p : Pattern} {u name more content : List Char}

open Script (Header)
open Source (IsBlanks IsLineRest)

/-! ## Statements -/

/-- A search that meets a statement finds the name of its module. -/
theorem FindsStatements.finds {pre rest : List Char} {mark : Char} (h : FindsStatements p)
    (bare : c.captures = []) (matched : p.run c ≠ [])
    (text : c.rest = pre ++ mark :: (name ++ mark :: rest)) (isMark : mark ∈ quotes.toList)
    (inside : Inside pre) (plain : ∀ x ∈ name, x ∉ quotes.toList) : Finds p c name := by
  rw [Finds, h.found_of_run_ne_nil bare matched text isMark isMark inside plain]
  exact ⟨_, List.mem_cons_self, _, rfl, rfl⟩

/-- A search goes on behind the line of a statement, whether it finds the name or not. -/
theorem FindsStatements.found_past_statement {pre behind : List Char} {mark : Char}
    (h : FindsStatements p) (bare : c.captures = [])
    (text : c.rest = pre ++ mark :: (name ++ mark :: (behind ++ more)))
    (isMark : mark ∈ quotes.toList) (inside : Inside pre)
    (plain : ∀ x ∈ name, x ∉ quotes.toList ∧ x ≠ '\n') (line_rest : IsLineRest behind) :
    p.found (c.past (pre ++ mark :: (name ++ mark :: behind))) ⊆ p.found c := by
  have rest : (c.past (pre ++ mark :: (name ++ [mark]))).rest = behind ++ more := by
    refine Cursor.rest_past ?_
    simpa using text
  have closed : (c.past (pre ++ mark :: (name ++ [mark]))).before = some mark := by
    rw [← List.cons_append, ← List.append_assoc, Cursor.before_past_append_singleton]
  have other : mark ≠ '\n' := ne_of_mem_of_not_mem isMark (by decide)
  have line : pre ++ mark :: (name ++ mark :: behind) =
      (pre ++ mark :: (name ++ [mark])) ++ behind := by simp
  rw [line, ← Cursor.past_past, ← h.found_past_lineRest closed other line_rest rest]
  exact h.found_past_subset bare text isMark isMark inside plain

/-- The module of a statement is found by one of the two searches. -/
theorem finds_statement {gap more : List Char} {mark : Char} {xs : List (Script.Atom × List Char)}
    (start : c.before = none ∨ c.before = some '\n') (bare : c.captures = []) (blanks : IsBlanks gap)
    (front : Script.IsImport (xs.map Prod.fst) ∨ Script.IsReexport (xs.map Prod.fst))
    (spaced : Script.Spaced (xs ++ [(.name mark name, [])]))
    (text : c.rest = (gap ++ Script.spell xs) ++ mark :: (name ++ mark :: more)) :
    Finds scriptImport c name ∨ Finds scriptReexport c name := by
  obtain ⟨isMark, -, plain⟩ := fine_name spaced
  have inside : Inside (gap ++ Script.spell xs) :=
    inside_statement blanks front fun x there => spaced.fine x (List.mem_append_left _ there)
  have unquoted : ∀ x ∈ name, x ∉ quotes.toList := fun x there => (plain x there).1
  have at_gap := text
  rw [List.append_assoc] at at_gap
  rcases front with front | front
  · obtain ⟨p, same, meets⟩ := meets_scriptImport front spaced
    refine .inl (findsStatements_scriptImport.finds bare ?_ text isMark inside unquoted)
    rw [same]
    exact run_lineIndent_ne_nil start blanks meets at_gap
  · obtain ⟨p, same, meets⟩ := meets_scriptReexport front spaced
    refine .inr (findsStatements_scriptReexport.finds bare ?_ text isMark inside unquoted)
    rw [same]
    exact run_lineIndent_ne_nil start blanks meets at_gap

/-- Every module that a header names is found by one of the two searches. -/
theorem finds_of_header {names : List (List Char)} {header : List Char} (h : Header names header)
    (start : c.before = none ∨ c.before = some '\n') (bare : c.captures = [])
    (text : c.rest = header ++ more) :
    ∀ name ∈ names, Finds scriptImport c name ∨ Finds scriptReexport c name := by
  induction h generalizing c with
  | nil => nofun
  | @comment names gap cs header blanks comment _ ih =>
      intro name there
      have line : c.rest = (gap ++ cs) ++ (header ++ more) := by simpa using text
      have feed := before_past_lineRest c gap (.comment comment)
      rw [List.append_assoc] at line
      have behind : (c.past (gap ++ cs)).rest = header ++ more :=
        Cursor.rest_past (by rw [line, List.append_assoc])
      refine (ih (.inr feed) bare behind name there).imp (fun found => ?_) fun found => ?_
      · rwa [Finds, findsStatements_scriptImport.found_past_comment blanks comment line]
      · rwa [Finds, findsStatements_scriptReexport.found_past_comment blanks comment line]
  | @statement names gap behind header module mark xs blanks front spaced line_rest _ ih =>
      have quoted : c.rest = (gap ++ Script.spell xs) ++
          mark :: (module ++ mark :: (behind ++ (header ++ more))) := by simpa using text
      refine List.forall_mem_cons.mpr
        ⟨finds_statement start bare blanks front spaced quoted, fun name there => ?_⟩
      obtain ⟨isMark, -, plain⟩ := fine_name spaced
      have inside : Inside (gap ++ Script.spell xs) :=
        inside_statement blanks front fun x there => spaced.fine x (List.mem_append_left _ there)
      have feed : (c.past ((gap ++ Script.spell xs) ++
          mark :: (module ++ mark :: behind))).before = some '\n' := by
        rw [← before_past_lineRest c ((gap ++ Script.spell xs) ++ mark :: (module ++ [mark]))
          line_rest]
        simp
      have subset {p : Pattern} (h : FindsStatements p) :=
        h.found_past_statement bare quoted isMark inside plain line_rest
      refine (ih (.inr feed) bare (Cursor.rest_past ?_) name there).imp (fun found => ?_)
        fun found => ?_
      · simpa using quoted
      · exact found.of_subset (subset findsStatements_scriptImport)
      · exact found.of_subset (subset findsStatements_scriptReexport)

/-! ## Specifiers -/

/-- A place in a text, on the way to which every capture reached up to a quotation mark. -/
structure IsIn (content : List Char) (c : Cursor) : Prop where
  rest : content.drop c.offset = c.rest
  named : ∀ x ∈ c.captures, x.2.text = (content.drop x.2.offset).takeWhile (· ∉ quotes.toList)

theorem IsIn.past (h : IsIn content c) (u : List Char) : IsIn content (c.past u) where
  rest := by
    rw [Cursor.offset_past, ← List.drop_drop, h.rest]
    rfl
  named := h.named

/-- What a pattern keeps. -/
def Keeps (content : List Char) (p : Pattern) : Prop :=
  Relates (fun c d => IsIn content c → IsIn content d) p

theorem keeps_of_isPlain (plain : p.isPlain = true) : Keeps content p := by
  intro c d there h
  obtain ⟨u, text, rfl⟩ := relates_passed plain c d there
  exact h.past u

theorem Keeps.seq {q : Pattern} (first : Keeps content p) (second : Keeps content q) :
    Keeps content (Pattern.seq p q) :=
  Relates.seq (fun _ _ _ h h' there => h' (h there)) first second

theorem keeps_quotedName : Keeps content quotedName := by
  intro c d there h
  obtain ⟨mark, name, mark', text, -, isMark', plain, rfl⟩ := mem_run_quotedName there
  refine ⟨(h.past _).rest, List.forall_mem_cons.mpr ⟨?_, h.named⟩⟩
  rw [← List.drop_drop, h.rest, text, List.drop_one, List.tail_cons,
    List.takeWhile_append_of_pos fun x there => decide_eq_true (plain x there)]
  simp [isMark']

theorem keeps_scriptImport : Keeps content scriptImport :=
  .seq (keeps_of_isPlain rfl) (.seq (keeps_of_isPlain rfl) (.seq (keeps_of_isPlain rfl)
    (.seq (keeps_of_isPlain rfl) keeps_quotedName)))

theorem keeps_scriptReexport : Keeps content scriptReexport :=
  .seq (keeps_of_isPlain rfl) (.seq (keeps_of_isPlain rfl) (.seq (keeps_of_isPlain rfl)
    (.seq (keeps_of_isPlain rfl) (.seq (keeps_of_isPlain rfl) (.seq (keeps_of_isPlain rfl)
      (.seq (keeps_of_isPlain rfl) (.seq (keeps_of_isPlain rfl) keeps_quotedName)))))))

theorem keeps_scriptCall : Keeps content scriptCall :=
  .seq (keeps_of_isPlain rfl) (.seq (keeps_of_isPlain rfl) (.seq (keeps_of_isPlain rfl)
    (.seq (keeps_of_isPlain rfl) (.seq keeps_quotedName (keeps_of_isPlain rfl)))))

/-- The text of a capture follows from where it begins. -/
theorem text_of_mem_firstGroups (keeps : Keeps content p) {capture : Capture}
    (there : capture ∈ firstGroups p content) :
    capture.text = (content.drop capture.offset).takeWhile (· ∉ quotes.toList) := by
  obtain ⟨d, found, first⟩ := List.mem_filterMap.mp there
  have place : IsIn content d := by
    refine findFrom_induction (fun c d h there => keeps c d there h)
      (fun d h => ⟨h.rest, fun _ there => absurd there List.not_mem_nil⟩) (fun c d h next => ?_)
      ⟨rfl, fun _ there => absurd there List.not_mem_nil⟩ found
    cases text : c.rest with
    | nil => simp [Cursor.next?, text] at next
    | cons x rest =>
        rw [Cursor.next?_eq text] at next
        exact Option.some.inj next ▸ h.past [x]
  exact place.named _ (Table.mem_of_lookup_eq_some first)

@[simp] theorem mem_insertByOffset {α : Type} {x y : Nat × α} {xs : List (Nat × α)} :
    y ∈ insertByOffset x xs ↔ y = x ∨ y ∈ xs := by
  induction xs with
  | nil => simp [insertByOffset]
  | cons z xs ih =>
      rw [insertByOffset]
      split
      · simp
      · simp [ih, or_left_comm]

@[simp] theorem mem_sortByOffset {α : Type} {x : Nat × α} {xs : List (Nat × α)} :
    x ∈ sortByOffset xs ↔ x ∈ xs := by
  induction xs with
  | nil => rfl
  | cons y xs ih =>
      have sorted : sortByOffset (y :: xs) = insertByOffset y (sortByOffset xs) := rfl
      rw [sorted, mem_insertByOffset, ih, List.mem_cons]

theorem mem_of_mem_dropSameOffset {α : Type} {x : Nat × α} {xs : List (Nat × α)}
    (there : x ∈ dropSameOffset xs) : x ∈ xs := by
  induction xs with
  | nil => exact there
  | cons y xs ih =>
      rw [dropSameOffset] at there
      cases kept : dropSameOffset xs with
      | nil => simp_all
      | cons z zs =>
          rw [kept] at there ih
          dsimp only at there
          split at there <;> grind

/-- Something is kept at every offset. -/
theorem exists_mem_dropSameOffset {α : Type} {x : Nat × α} {xs : List (Nat × α)} (there : x ∈ xs) :
    ∃ y ∈ dropSameOffset xs, y.1 = x.1 := by
  induction xs with
  | nil => cases there
  | cons y xs ih =>
      rw [dropSameOffset]
      cases kept : dropSameOffset xs with
      | nil =>
          rcases List.mem_cons.mp there with rfl | there
          · exact ⟨x, List.mem_singleton_self x, rfl⟩
          · obtain ⟨z, hz, -⟩ := ih there
            rw [kept] at hz
            cases hz
      | cons z zs =>
          rw [kept] at ih
          dsimp only
          split <;> grind

/-- What one of the searches finds is among the specifiers. -/
theorem mem_inScript (found : Finds scriptImport (Cursor.start content) name ∨
    Finds scriptReexport (Cursor.start content) name) :
    ofScriptName name ∈ inScript content := by
  have listed : ∃ capture ∈ firstGroups scriptImport content ++
      firstGroups scriptReexport content ++ firstGroups scriptCall content,
      capture.text = name := by
    rcases found with ⟨d, there, capture, first, same⟩ | ⟨d, there, capture, first, same⟩
    · have there := List.mem_filterMap (f := fun c : Cursor => c.capture? 1).mpr ⟨d, there, first⟩
      exact ⟨capture, List.mem_append_left _ (List.mem_append_left _ there), same⟩
    · have there := List.mem_filterMap (f := fun c : Cursor => c.capture? 1).mpr ⟨d, there, first⟩
      exact ⟨capture, List.mem_append_left _ (List.mem_append_right _ there), same⟩
  have text {capture : Capture} (there : capture ∈ firstGroups scriptImport content ++
      firstGroups scriptReexport content ++ firstGroups scriptCall content) :
      capture.text = (content.drop capture.offset).takeWhile (· ∉ quotes.toList) := by
    rcases List.mem_append.mp there with there | there
    · rcases List.mem_append.mp there with there | there
      · exact text_of_mem_firstGroups keeps_scriptImport there
      · exact text_of_mem_firstGroups keeps_scriptReexport there
    · exact text_of_mem_firstGroups keeps_scriptCall there
  obtain ⟨capture, there, rfl⟩ := listed
  have sorted := mem_sortByOffset.mpr
    (List.mem_map_of_mem (f := fun c : Capture => (c.offset, c.text)) there)
  obtain ⟨y, kept, same_offset⟩ := exists_mem_dropSameOffset sorted
  obtain ⟨other, there', rfl⟩ := List.mem_map.mp
    (mem_sortByOffset.mp (mem_of_mem_dropSameOffset kept))
  have same_text : other.text = capture.text := by
    rw [text there', text there]
    exact congrArg (fun n => (content.drop n).takeWhile (· ∉ quotes.toList)) same_offset
  rw [← same_text]
  exact List.mem_map_of_mem kept

/-- Every module that the header of a script names is among its specifiers. -/
theorem ofScriptName_mem_inScript {names : List (List Char)} {header : List Char}
    (h : Header names header) (more : List Char) :
    ∀ name ∈ names, ofScriptName name ∈ inScript (header ++ more) :=
  fun name there => mem_inScript (finds_of_header h (.inl rfl) rfl rfl name there)

end CommitSplit.Specifier
