import CommitSplit.Change.Listing
import CommitSplit.Proofs.Attempt
import CommitSplit.Proofs.Path.Normal
import CommitSplit.Proofs.Text.Lines

/-!
# Reading a listing back

A change is spelled by the letter of its kind and its paths, with tabs between them. A listing of
such lines is read back as the list of the changes, whatever its lines end with and however many
blank lines stand between them. Line counts are not spelled, so they do not come back.
-/

namespace CommitSplit.Change

open Text (IsLineEnd lineChars)

variable {change : Change} {changes : List Change} {line text status : List Char}

/-! ## Lines -/

/-- A path that can stand in a line as it is. -/
structure IsListable (path : String) : Prop where
  normal : Path.normalize path = path
  some_path : path ≠ ""
  no_tab : '\t' ∉ path.toList
  no_feed : '\n' ∉ path.toList

/-- The paths of a change as a line lists them. -/
def spelledPaths (c : Change) : List String :=
  c.previousPath.toList ++ [c.path]

/-- A change of which every path can stand in a line, with a previous path exactly for a rename. -/
structure Listable (c : Change) : Prop where
  paths : ∀ path ∈ c.spelledPaths, IsListable path
  renamed : c.previousPath.isSome = true ↔ c.kind = .renamed

/-- The status of a kind of change. A rename has a score. -/
inductive SpellsKind : ChangeKind → List Char → Prop
  | added : SpellsKind .added ['A']
  | modified : SpellsKind .modified ['M']
  | deleted : SpellsKind .deleted ['D']
  | renamed {score : List Char} (decimal : ∀ d ∈ score, d.isDigit = true) :
      SpellsKind .renamed ('R' :: score)

/-- A line that spells a change: its status and its paths, with tabs between them. -/
def Spells (c : Change) (line : List Char) : Prop :=
  ∃ status, SpellsKind c.kind status ∧
    line = ['\t'].intercalate (status :: c.spelledPaths.map String.toList)

/-- The change without its line counts. -/
def withoutDelta (c : Change) : Change :=
  { c with delta := none }

/-! ## Fields -/

/-- A text that is a field of a line as it is. -/
structure IsField (cs : List Char) : Prop where
  some_text : cs ≠ []
  trimmed : Text.trimChars cs = cs
  no_tab : '\t' ∉ cs
  no_feed : '\n' ∉ cs

theorem IsListable.isField {path : String} (h : IsListable path) : IsField path.toList where
  some_text := by simpa using h.some_path
  no_tab := h.no_tab
  no_feed := h.no_feed
  trimmed := Text.trimChars_eq_self_iff.mpr (Path.isTrimmed_of_fixed h.normal)

theorem SpellsKind.isField {kind : ChangeKind} (h : SpellsKind kind status) : IsField status := by
  have letters : ∀ c ∈ status, Text.isBlank c = false := by
    cases h with
    | renamed decimal =>
        refine List.forall_mem_cons.mpr ⟨rfl, fun d there => ?_⟩
        exact Text.isBlank_of_isDigit (decimal d there)
    | _ => exact List.all_iff_forall_prop.mp rfl
  refine ⟨?_, Text.trimChars_of_forall letters, ?_, ?_⟩
  · cases h <;> exact List.cons_ne_nil _ _
  · exact fun tab => Bool.noConfusion (letters _ tab)
  · exact fun feed => Bool.noConfusion (letters _ feed)

/-- The status and the paths of a change are fields. -/
theorem SpellsKind.isField_of_mem (kind : SpellsKind change.kind status)
    (listable : change.Listable) :
    ∀ field ∈ status :: change.spelledPaths.map String.toList, IsField field := by
  refine List.forall_mem_cons.mpr ⟨kind.isField, fun field there => ?_⟩
  obtain ⟨path, listed, rfl⟩ := List.mem_map.mp there
  exact (listable.paths path listed).isField

/-- The fields of a line are the texts between its tabs. -/
theorem fieldsOfLine_intercalate {fields : List (List Char)}
    (fine : ∀ field ∈ fields, IsField field) (some_field : fields ≠ []) :
    fieldsOfLine (String.ofList (['\t'].intercalate fields)) = fields.map String.ofList := by
  have trimmed : fields.map Text.trimChars = fields := by
    rw [List.map_congr_left fun field there => (fine field there).trimmed, List.map_id']
  rw [fieldsOfLine, String.toList_ofList,
    Text.splitOn_intercalate (fun field there => (fine field there).no_tab) some_field, trimmed,
    List.filter_eq_self.mpr fun field there => decide_eq_true (fine field there).some_text]

/-- The fields of a spelled change describe it. -/
theorem ofFields_of_spellsKind (kind : SpellsKind change.kind status) (listable : change.Listable) :
    ofFields (String.ofList status :: change.spelledPaths) = .ok change.withoutDelta := by
  obtain ⟨path, kind_, previousPath, delta⟩ := change
  obtain ⟨paths, renamed⟩ := listable
  cases previousPath with
  | none =>
      have fine := paths path (by simp [spelledPaths])
      cases kind with
      | renamed _ => simp at renamed
      | _ =>
        simp [ofFields, spelledPaths, ofStatus, added, modified, deleted, new, fine.normal,
          fine.some_path, withoutDelta]
  | some source =>
      have fine := paths path (by simp [spelledPaths])
      have fine' := paths source (by simp [spelledPaths])
      cases kind with
      | renamed _ =>
        simp [ofFields, spelledPaths, ofStatus, Change.renamed, new, fine.normal, fine'.normal,
          fine.some_path, withoutDelta]
      | _ => simp at renamed

/-! ## Spelled lines -/

namespace Spells

theorem ofLine_eq (h : Spells change line) (listable : change.Listable) :
    ofLine (String.ofList line) = .ok change.withoutDelta := by
  obtain ⟨status, kind, rfl⟩ := h
  have fields := fieldsOfLine_intercalate (kind.isField_of_mem listable) (List.cons_ne_nil _ _)
  simp only [List.map_cons, List.map_map, Function.comp_def, String.ofList_toList,
    List.map_id'] at fields
  rw [ofLine, fields, ofFields_of_spellsKind kind listable]
  rfl

theorem no_feed (h : Spells change line) (listable : change.Listable) : '\n' ∉ line := by
  obtain ⟨status, kind, rfl⟩ := h
  exact Text.notMem_intercalate (by decide)
    fun field there => (kind.isField_of_mem listable field there).no_feed

/-- A spelled line ends as its path does. -/
theorem exists_last (h : Spells change line) (listable : change.Listable) :
    ∃ c, line.getLast? = some c ∧ Text.isBlank c = false := by
  obtain ⟨status, kind, rfl⟩ := h
  have path : IsField change.path.toList :=
    (listable.paths change.path (by simp [spelledPaths])).isField
  have last : (status :: change.spelledPaths.map String.toList).getLast? =
      some change.path.toList := by
    rw [spelledPaths, List.map_append, ← List.cons_append]
    exact List.getLast?_concat
  obtain ⟨c, ends⟩ : ∃ c, change.path.toList.getLast? = some c :=
    Option.isSome_iff_exists.mp (by simpa using path.some_text)
  rw [Text.getLast?_intercalate last path.some_text]
  exact ⟨c, ends, (Text.trimChars_eq_self_iff.mp path.trimmed).last c ends⟩

theorem dropReturn_eq (h : Spells change line) (listable : change.Listable) :
    Text.dropReturn line = line := by
  obtain ⟨c, ends, visible⟩ := h.exists_last listable
  refine if_neg fun returns => ?_
  cases ends.symm.trans returns
  cases visible

theorem not_blank (h : Spells change line) (listable : change.Listable) :
    Text.isBlankText (String.ofList line) = false := by
  obtain ⟨c, ends, visible⟩ := h.exists_last listable
  rw [Text.isBlankText, String.toList_ofList, List.all_eq_false]
  exact ⟨c, List.mem_of_getLast? ends, by simp [visible]⟩

end Spells

/-! ## Listings -/

/-- A text that lists changes one a line, in order, with any number of blank lines among them. The
last line may be without an end. -/
inductive Lists : List Change → List Char → Prop
  | blank {line : List Char} : line.all Text.isBlank = true → '\n' ∉ line → Lists [] line
  | single {change : Change} {line : List Char} : Spells change line → Lists [change] line
  | skip {changes : List Change} {line ending text : List Char} : line.all Text.isBlank = true →
      '\n' ∉ line → IsLineEnd ending → Lists changes text → Lists changes (line ++ ending ++ text)
  | cons {change : Change} {changes : List Change} {line ending text : List Char} :
      Spells change line → IsLineEnd ending → Lists changes text →
      Lists (change :: changes) (line ++ ending ++ text)

/-- What is read from the lines of a text. -/
def ofLines (lines : List (List Char)) : Except LineError (List Change) :=
  ((lines.map String.ofList).filter fun line => !Text.isBlankText line).mapM ofLine

theorem ofListing_eq (text : List Char) :
    ofListing (String.ofList text) = ofLines (lineChars text) := by
  rw [ofListing, ofLines, Text.lines_eq, String.toList_ofList]

theorem ofLines_cons_of_blank (blank : line.all Text.isBlank = true) (lines : List (List Char)) :
    ofLines (line :: lines) = ofLines lines := by
  have skipped : Text.isBlankText (String.ofList line) = true := by
    rwa [Text.isBlankText, String.toList_ofList]
  simp [ofLines, skipped]

theorem ofLines_cons_of_spells (spells : Spells change line) (listable : change.Listable)
    {lines : List (List Char)} (rest : ofLines lines = .ok changes) :
    ofLines (line :: lines) = .ok (change.withoutDelta :: changes) := by
  rw [ofLines] at rest
  simp [ofLines, spells.not_blank listable, spells.ofLine_eq listable, rest]
  rfl

/-- A listing is read back as what it lists, without line counts. -/
theorem ofListing_of_lists (changes : List Change) (text : List Char) (lists : Lists changes text)
    (listable : ∀ change ∈ changes, change.Listable) :
    ofListing (String.ofList text) = .ok (changes.map withoutDelta) := by
  rw [ofListing_eq]
  induction lists with
  | @blank line blank apart =>
      rw [Text.lineChars_of_notMem apart]
      split
      · rfl
      · exact ofLines_cons_of_blank blank []
  | @single change line spells =>
      have listable := listable change List.mem_cons_self
      obtain ⟨c, ends, -⟩ := spells.exists_last listable
      rw [Text.lineChars_of_notMem (spells.no_feed listable), if_neg (by rintro rfl; cases ends)]
      exact ofLines_cons_of_spells spells listable rfl
  | @skip changes line ending text blank apart ends _ ih =>
      obtain ⟨first, same, lines⟩ := ends.lineChars_append apart text
      have blank : first.all Text.isBlank = true := by
        rw [List.all_eq_true] at blank ⊢
        rcases same with rfl | rfl
        · exact blank
        · exact fun c there => blank c ((Text.dropReturn_sublist line).subset there)
      rw [lines, ofLines_cons_of_blank blank, ih listable]
  | @cons change changes line ending text spells ends _ ih =>
      obtain ⟨here, listable⟩ := List.forall_mem_cons.mp listable
      obtain ⟨first, same, lines⟩ := ends.lineChars_append (spells.no_feed here) text
      rw [spells.dropReturn_eq here, or_self] at same
      rw [lines, same]
      exact ofLines_cons_of_spells spells here (ih listable)

/-- A rename with blanks inside its path and a deletion, between them a line of blanks and an empty
one. -/
theorem ofListing_of_lists_with_blanks :
    let changes : List Change :=
      [⟨"src/naïve file.ts", .renamed, some "src/a\r.ts", none⟩, ⟨"b.ts", .deleted, none, none⟩]
    let text := "R087\tsrc/a\r.ts\tsrc/naïve file.ts\r\n \t\u2003\r\n\nD\tb.ts"
    (Lists changes text.toList ∧ ∀ change ∈ changes, change.Listable) ∧
      ofListing text = .ok changes := by
  intro changes text
  have spelled : text.toList =
      "R087\tsrc/a\r.ts\tsrc/naïve file.ts".toList ++ ['\r', '\n'] ++
        (" \t\u2003".toList ++ ['\r', '\n'] ++ ([] ++ ['\n'] ++ "D\tb.ts".toList)) := by
    decide
  have lists : Lists changes text.toList := by
    rw [spelled]
    exact .cons ⟨"R087".toList, .renamed (List.all_iff_forall_prop.mp rfl), by decide⟩ .returnFeed <|
      .skip (by decide) (by decide) .returnFeed <|
      .skip (by decide) (by decide) .feed <| .single ⟨"D".toList, .deleted, by decide⟩
  have path {p : String} (h : p ∈ ["src/naïve file.ts", "src/a\r.ts", "b.ts"]) : IsListable p := by
    simp only [List.mem_cons, List.not_mem_nil, or_false] at h
    rcases h with rfl | rfl | rfl <;> exact ⟨by decide, by decide, by decide, by decide⟩
  have listable : ∀ change ∈ changes, change.Listable := by
    refine List.forall_mem_cons.mpr ⟨⟨?_, by decide⟩, List.forall_mem_singleton.mpr ⟨?_, by decide⟩⟩
    · exact List.forall_mem_cons.mpr
        ⟨path (by simp), List.forall_mem_singleton.mpr (path (by simp))⟩
    · exact List.forall_mem_singleton.mpr (path (by simp))
  have read := ofListing_of_lists changes text.toList lists listable
  rw [String.ofList_toList] at read
  exact ⟨⟨lists, listable⟩, read⟩

/-- Line counts do not come back, as no line spells them. -/
theorem ofListing_ne_of_delta :
    let change : Change := ⟨"a.ts", .modified, none, some ⟨1, 0⟩⟩
    (Lists [change] "M\ta.ts".toList ∧ change.Listable) ∧
      ofListing "M\ta.ts" = .ok [⟨"a.ts", .modified, none, none⟩] ∧
      ofListing "M\ta.ts" ≠ .ok [change] := by
  intro change
  have lists : Lists [change] "M\ta.ts".toList :=
    .single ⟨"M".toList, .modified, by decide⟩
  have listable : change.Listable :=
    ⟨List.forall_mem_singleton.mpr ⟨by decide, by decide, by decide, by decide⟩, by decide⟩
  have read : ofListing "M\ta.ts" = .ok [⟨"a.ts", .modified, none, none⟩] := by decide
  refine ⟨⟨lists, listable⟩, read, ?_⟩
  rw [read]
  decide

/-! ## Previous paths -/

/-- A status that is not of a rename does not give a previous path. -/
theorem previousPath_of_ofStatus {status : Option Char} {first : String} {second : Option String}
    (read : ofStatus status first second = .ok change) (kept : change.kind ≠ .renamed) :
    change.previousPath = none := by
  unfold ofStatus at read
  split at read
  case h_5 => exact absurd (congrArg Change.kind (Except.ok.inj read).symm) kept
  case h_6 | h_8 | h_9 => cases read
  all_goals exact Except.ok.inj read ▸ rfl

/-- In a listing only renamed files have previous paths. -/
theorem previousPath_of_ofListing {text : String} (read : ofListing text = .ok changes)
    (there : change ∈ changes) (kept : change.kind ≠ .renamed) : change.previousPath = none := by
  obtain ⟨line, -, read⟩ := Attempt.exists_of_mem_of_mapM_eq_ok read there
  have described := Attempt.mapError_eq_ok_iff.mp read
  unfold ofFields at described
  split at described
  · cases described
  · cases described
  · split at described
    · cases described
    · rename_i known
      split at described
      · cases described
      · cases described
        exact previousPath_of_ofStatus known kept

end CommitSplit.Change
