import CommitSplit.Proofs.Change.Listing

/-!
# The lines of a listing that are accepted

A line is read from its fields that are not blank: the first letter of the first one decides how
many of the others are paths, and what follows that letter or those paths is not looked at. Of the
paths of a change only the one where the file is now has to name something. So more lines are
accepted than are well-formed: those with something behind the letter that is no score, with blank
or further fields, and renames of nothing.
-/

namespace CommitSplit.Change

variable {letter : Char} {tail : List Char} {paths paths' further fields : List String}
  {change : Change} {line : String} {fault : LineFault}

/-! ## What a line says -/

/-- The change that a letter and its paths describe. -/
inductive Describes : Char → List String → Change → Prop
  | added (path : String) : Describes 'A' [path] (.added path)
  | modified (path : String) : Describes 'M' [path] (.modified path)
  | retyped (path : String) : Describes 'T' [path] (.modified path)
  | deleted (path : String) : Describes 'D' [path] (.deleted path)
  | renamed (source target : String) : Describes 'R' [source, target] (.renamed source target)
  | copied (source target : String) : Describes 'C' [source, target] (.added target)

/-- What may follow a letter: digits for a rename or a copy, and else nothing. -/
def IsScore (letter : Char) (tail : List Char) : Prop :=
  (∀ c ∈ tail, c.isDigit = true) ∧ (tail ≠ [] → letter ∈ ['R', 'C'])

/-- A line of which the fields are a status and the paths of a change, and each path of the change
names something. -/
def IsWellFormed (line : String) (change : Change) : Prop :=
  ∃ letter score paths, Text.splitOn '\t' line.toList = (letter :: score) :: paths ∧
    IsScore letter score ∧ Describes letter (paths.map String.ofList) change ∧
      ∀ path ∈ change.spelledPaths, path ≠ ""

/-- The fields of a line that are not blank begin with a status and with as many paths as its
letter asks for. -/
structure Starts (line : String) (letter : Char) (tail : List Char) (paths further : List String)
    (change : Change) : Prop where
  fields_eq : fieldsOfLine line = String.ofList (letter :: tail) :: (paths ++ further)
  describes : Describes letter paths change
  some_path : change.path ≠ ""

/-- What is wrong with the fields of a line. -/
inductive Spoils : List String → LineFault → Prop
  | emptyLine : Spoils [] .emptyLine
  | missingPath (status : String) : Spoils [status] .missingPath
  | renameWithoutTarget (tail : List Char) (source : String) :
      Spoils [String.ofList ('R' :: tail), source] .renameWithoutTarget
  | copyWithoutTarget (tail : List Char) (source : String) :
      Spoils [String.ofList ('C' :: tail), source] .copyWithoutTarget
  | unknownStatus {status first : String} {further : List String} :
      (∀ letter ∈ status.toList.head?, letter ∉ ['A', 'M', 'T', 'D', 'R', 'C']) →
      Spoils (status :: first :: further) .unknownStatus
  | emptyPath {letter : Char} {tail : List Char} {paths further : List String} {change : Change} :
      Describes letter paths change → change.path = "" →
      Spoils (String.ofList (letter :: tail) :: (paths ++ further)) .emptyPath

namespace Describes

/-- A rename or a copy has two paths, and everything else has one. -/
theorem length_eq (h : Describes letter paths change) :
    paths.length = if letter ∈ ['R', 'C'] then 2 else 1 := by
  cases h <;> rfl

theorem isBlank_eq_false (h : Describes letter paths change) : Text.isBlank letter = false := by
  cases h <;> decide

/-- Only the normal forms of the paths count. -/
theorem congr (h : Describes letter paths change)
    (same : paths.map Path.normalize = paths'.map Path.normalize) :
    Describes letter paths' change := by
  have pair {source target : String} (two : paths'.map Path.normalize = [source, target]) :
      ∃ source' target', paths' = [source', target'] ∧ Path.normalize source' = source ∧
        Path.normalize target' = target := by
    obtain ⟨source', rest, rfl, first, one⟩ := List.map_eq_cons_iff.mp two
    obtain ⟨target', rfl, second⟩ := List.map_eq_singleton_iff.mp one
    exact ⟨source', target', rfl, first, second⟩
  cases h with
  | added path =>
      obtain ⟨path', rfl, normal⟩ := List.map_eq_singleton_iff.mp same.symm
      rw [Change.added, new, ← normal]
      exact .added path'
  | modified path =>
      obtain ⟨path', rfl, normal⟩ := List.map_eq_singleton_iff.mp same.symm
      rw [Change.modified, new, ← normal]
      exact .modified path'
  | retyped path =>
      obtain ⟨path', rfl, normal⟩ := List.map_eq_singleton_iff.mp same.symm
      rw [Change.modified, new, ← normal]
      exact .retyped path'
  | deleted path =>
      obtain ⟨path', rfl, normal⟩ := List.map_eq_singleton_iff.mp same.symm
      rw [Change.deleted, new, ← normal]
      exact .deleted path'
  | renamed source target =>
      obtain ⟨source', target', rfl, first, second⟩ := pair same.symm
      rw [Change.renamed, new, ← first, ← second]
      exact .renamed source' target'
  | copied source target =>
      obtain ⟨source', target', rfl, -, second⟩ := pair same.symm
      rw [Change.added, new, ← second]
      exact .copied source' target'

end Describes

/-! ## Reading fields -/

theorem ofStatus_eq_ok_iff {status : Option Char} {first : String} :
    ofStatus status first further.head? = .ok change ↔
      ∃ letter paths rest, status = some letter ∧ first :: further = paths ++ rest ∧
        Describes letter paths change := by
  constructor
  · intro read
    unfold ofStatus at read
    split at read
    case h_1 => exact ⟨'A', [first], further, rfl, rfl, Except.ok.inj read ▸ .added first⟩
    case h_2 => exact ⟨'M', [first], further, rfl, rfl, Except.ok.inj read ▸ .modified first⟩
    case h_3 => exact ⟨'T', [first], further, rfl, rfl, Except.ok.inj read ▸ .retyped first⟩
    case h_4 => exact ⟨'D', [first], further, rfl, rfl, Except.ok.inj read ▸ .deleted first⟩
    case h_5 target second =>
      obtain ⟨rest, rfl⟩ := List.head?_eq_some_iff.mp second
      exact ⟨'R', [first, target], rest, rfl, rfl, Except.ok.inj read ▸ .renamed first target⟩
    case h_7 target second =>
      obtain ⟨rest, rfl⟩ := List.head?_eq_some_iff.mp second
      exact ⟨'C', [first, target], rest, rfl, rfl, Except.ok.inj read ▸ .copied first target⟩
    case h_6 | h_8 | h_9 => cases read
  · rintro ⟨letter, paths, rest, rfl, split, describes⟩
    cases describes <;> cases split <;> rfl

/-- A letter that stands for nothing. -/
theorem ofStatus_of_unknown {status : Option Char} {first : String} {second : Option String}
    (unknown : ∀ letter ∈ status, letter ∉ ['A', 'M', 'T', 'D', 'R', 'C']) :
    ofStatus status first second = .error .unknownStatus := by
  unfold ofStatus
  split
  case h_9 => rfl
  all_goals exact absurd (by decide) (unknown _ rfl)

/-- Fields that describe a change are read as this change, if it names a path. -/
theorem ofFields_of_describes (describes : Describes letter paths change) :
    ofFields (String.ofList (letter :: tail) :: (paths ++ further)) =
      if change.path = "" then .error .emptyPath else .ok change := by
  obtain ⟨first, rest, split⟩ : ∃ first rest, paths ++ further = first :: rest := by
    cases describes <;> exact ⟨_, _, rfl⟩
  have read : ofStatus (some letter) first rest.head? = .ok change :=
    ofStatus_eq_ok_iff.mpr ⟨letter, paths, further, rfl, split.symm, describes⟩
  simp only [split, ofFields, String.toList_ofList, List.head?_cons, read]

theorem ofFields_eq_ok_iff :
    ofFields fields = .ok change ↔
      ∃ letter tail paths further, fields = String.ofList (letter :: tail) :: (paths ++ further) ∧
        Describes letter paths change ∧ change.path ≠ "" := by
  constructor
  · intro read
    unfold ofFields at read
    split at read
    · cases read
    · cases read
    · rename_i status first further
      split at read
      · cases read
      · rename_i known
        split at read
        · cases read
        · rename_i some_path
          cases read
          obtain ⟨letter, paths, rest, head, split, describes⟩ := ofStatus_eq_ok_iff.mp known
          obtain ⟨tail, letters⟩ := List.head?_eq_some_iff.mp head
          refine ⟨letter, tail, paths, rest, ?_, describes, some_path⟩
          rw [← letters, String.ofList_toList, split]
  · rintro ⟨letter, tail, paths, further, rfl, describes, some_path⟩
    rw [ofFields_of_describes describes, if_neg some_path]

theorem spoils_of_ofStatus {status first : String}
    (failed : ofStatus status.toList.head? first further.head? = .error fault) :
    Spoils (status :: first :: further) fault := by
  generalize head : status.toList.head? = letter, second : further.head? = target at failed
  unfold ofStatus at failed
  split at failed
  case h_6 =>
    cases failed
    obtain ⟨tail, letters⟩ := List.head?_eq_some_iff.mp head
    rw [List.head?_eq_none_iff.mp second, ← String.ofList_toList (s := status), letters]
    exact .renameWithoutTarget tail first
  case h_8 =>
    cases failed
    obtain ⟨tail, letters⟩ := List.head?_eq_some_iff.mp head
    rw [List.head?_eq_none_iff.mp second, ← String.ofList_toList (s := status), letters]
    exact .copyWithoutTarget tail first
  case h_9 =>
    cases failed
    refine .unknownStatus fun letter there known => ?_
    rw [head] at there
    cases target <;> simp_all
  all_goals cases failed

theorem ofFields_eq_error_iff : ofFields fields = .error fault ↔ Spoils fields fault := by
  constructor
  · intro read
    unfold ofFields at read
    split at read
    · cases read
      exact .emptyLine
    · cases read
      exact .missingPath _
    · rename_i status first further
      split at read
      · rename_i failed
        cases read
        exact spoils_of_ofStatus failed
      · rename_i known
        split at read
        · rename_i no_path
          cases read
          obtain ⟨letter, paths, rest, head, split, describes⟩ := ofStatus_eq_ok_iff.mp known
          obtain ⟨tail, letters⟩ := List.head?_eq_some_iff.mp head
          rw [split, ← String.ofList_toList (s := status), letters]
          exact .emptyPath describes no_path
        · cases read
  · intro spoils
    cases spoils with
    | emptyLine => rfl
    | missingPath => rfl
    | renameWithoutTarget => simp [ofFields, ofStatus]
    | copyWithoutTarget => simp [ofFields, ofStatus]
    | unknownStatus unknown => rw [ofFields, ofStatus_of_unknown unknown]
    | emptyPath describes no_path => rw [ofFields_of_describes describes, if_pos no_path]

/-! ## Lines -/

theorem isBlank_of_isScore (describes : Describes letter paths change)
    (score : IsScore letter tail) : ∀ c ∈ letter :: tail, Text.isBlank c = false :=
  List.forall_mem_cons.mpr
    ⟨describes.isBlank_eq_false, fun c there => Text.isBlank_of_isDigit (score.1 c there)⟩

/-- The fields of a line that begins with a status. -/
theorem fieldsOfLine_eq_cons {status : List Char} {pieces : List (List Char)}
    (split : Text.splitOn '\t' line.toList = status :: pieces) (some_status : status ≠ [])
    (trimmed : Text.trimChars status = status) :
    fieldsOfLine line = String.ofList status ::
      ((pieces.map Text.trimChars).filter (· ≠ [])).map String.ofList := by
  simp [fieldsOfLine, split, trimmed, some_status]

/-- Without blank fields these are the texts between the tabs, trimmed. -/
theorem fieldsOfLine_of_visible
    (visible : ∀ piece ∈ Text.splitOn '\t' line.toList, Text.trimChars piece ≠ []) :
    fieldsOfLine line =
      (Text.splitOn '\t' line.toList).map fun piece => String.ofList (Text.trimChars piece) := by
  rw [fieldsOfLine, List.filter_eq_self.mpr, List.map_map, Function.comp_def]
  intro field there
  obtain ⟨piece, listed, rfl⟩ := List.mem_map.mp there
  exact decide_eq_true (visible piece listed)

/-- The paths of a line in which no field is blank describe what they describe when trimmed. -/
theorem describes_trimmed_iff {pieces : List (List Char)} :
    Describes letter (pieces.map fun piece => String.ofList (Text.trimChars piece)) change ↔
      Describes letter (pieces.map String.ofList) change := by
  have same : (pieces.map fun piece => String.ofList (Text.trimChars piece)).map Path.normalize =
      (pieces.map String.ofList).map Path.normalize := by
    simp [Path.normalize_trimChars]
  exact ⟨fun h => h.congr same, fun h => h.congr same.symm⟩

/-- An accepted line is well-formed if a score is all that follows its letter, its paths are all
that follows its status, a previous path names something, no field is blank, and no blank stands
beside the status. -/
theorem Starts.isWellFormed_iff (h : Starts line letter tail paths further change) :
    IsWellFormed line change ↔
      IsScore letter tail ∧ further = [] ∧ change.previousPath ≠ some "" ∧
        (∀ piece ∈ Text.splitOn '\t' line.toList, Text.trimChars piece ≠ []) ∧
          (Text.splitOn '\t' line.toList).head? = some (letter :: tail) := by
  constructor
  · rintro ⟨letter', score, pieces, split, isScore, describes, some_paths⟩
    have trimmed := Text.trimChars_of_forall (isBlank_of_isScore describes isScore)
    have fields := fieldsOfLine_eq_cons split (List.cons_ne_nil _ _) trimmed
    rw [h.fields_eq, List.cons.injEq] at fields
    obtain ⟨same, fields⟩ := fields
    obtain ⟨rfl, rfl⟩ := List.cons_eq_cons.mp (String.ofList_injective same)
    -- The letter asks for as many paths as there are pieces, so no piece is blank or left over.
    have asked := describes.length_eq.trans h.describes.length_eq.symm
    have counted := congrArg List.length fields
    have le := List.length_filter_le (· ≠ []) (pieces.map Text.trimChars)
    simp only [List.length_append, List.length_map] at asked counted le
    have whole : ((pieces.map Text.trimChars).filter (· ≠ [])).length =
        (pieces.map Text.trimChars).length := by
      rw [List.length_map]
      omega
    refine ⟨isScore, List.eq_nil_of_length_eq_zero (by omega), ?_, ?_, ?_⟩
    · intro blank
      exact some_paths "" (by simp [spelledPaths, blank]) rfl
    · rw [split]
      refine List.forall_mem_cons.mpr ⟨trimmed.trans_ne (List.cons_ne_nil _ _), ?_⟩
      intro piece there
      have kept := List.length_filter_eq_length_iff.mp whole _ (List.mem_map_of_mem there)
      exact of_decide_eq_true kept
    · rw [split, List.head?_cons]
  · rintro ⟨isScore, rfl, some_previous, visible, status⟩
    obtain ⟨pieces, split⟩ := List.head?_eq_some_iff.mp status
    have trimmed := Text.trimChars_of_forall (isBlank_of_isScore h.describes isScore)
    have fields := fieldsOfLine_of_visible visible
    rw [h.fields_eq, split, List.append_nil, List.map_cons, trimmed, List.cons.injEq] at fields
    have describes := describes_trimmed_iff.mp (fields.2 ▸ h.describes)
    refine ⟨letter, tail, pieces, split, isScore, describes, fun path there => ?_⟩
    rcases List.mem_append.mp there with previous | own
    · rintro rfl
      exact some_previous (Option.mem_toList.mp previous)
    · rw [List.mem_singleton.mp own]
      exact h.some_path

/-- A line is accepted with what its letter and the paths behind it describe. -/
theorem ofLine_eq_ok_iff :
    ofLine line = .ok change ↔
      ∃ letter tail paths further, Starts line letter tail paths further change := by
  rw [ofLine, Attempt.mapError_eq_ok_iff, ofFields_eq_ok_iff]
  constructor
  · rintro ⟨letter, tail, paths, further, fields, describes, some_path⟩
    exact ⟨letter, tail, paths, further, ⟨fields, describes, some_path⟩⟩
  · rintro ⟨letter, tail, paths, further, h⟩
    exact ⟨letter, tail, paths, further, h.fields_eq, h.describes, h.some_path⟩

/-- A line is rejected with itself and with what is wrong with its fields. -/
theorem ofLine_eq_error_iff {error : LineError} :
    ofLine line = .error error ↔ error.line = line ∧ Spoils (fieldsOfLine line) error.fault := by
  rw [ofLine, ← ofFields_eq_error_iff]
  cases read : ofFields (fieldsOfLine line) with
  | ok change => simp [Except.mapError]
  | error fault =>
      cases error
      simp [Except.mapError, eq_comm]

/-- A well-formed line without blank fields is accepted. -/
theorem IsWellFormed.ofLine_eq (h : IsWellFormed line change)
    (visible : ∀ piece ∈ Text.splitOn '\t' line.toList, Text.trimChars piece ≠ []) :
    ofLine line = .ok change := by
  obtain ⟨letter, score, pieces, split, isScore, describes, some_paths⟩ := h
  have trimmed := Text.trimChars_of_forall (isBlank_of_isScore describes isScore)
  have fields := fieldsOfLine_of_visible visible
  rw [split, List.map_cons, trimmed] at fields
  refine ofLine_eq_ok_iff.mpr ⟨letter, score, _, [], ?_, describes_trimmed_iff.mpr describes, ?_⟩
  · rw [fields, List.append_nil]
  · exact some_paths change.path (by simp [spelledPaths])

/-- Every line is accepted with the change that its first letter and the paths behind it describe,
or rejected with what is wrong with its fields. A well-formed line is accepted if no field is blank.
An accepted line is well-formed exactly if nothing but a score follows its letter, nothing follows
its paths, its previous path names something, no field is blank and no blank is around its
status. -/
theorem ofLine_accepts (line : String) :
    (∀ change, ofLine line = .ok change ↔
        ∃ letter tail paths further, Starts line letter tail paths further change) ∧
      (∀ error, ofLine line = .error error ↔
        error.line = line ∧ Spoils (fieldsOfLine line) error.fault) ∧
      (∀ change, IsWellFormed line change →
        (∀ piece ∈ Text.splitOn '\t' line.toList, Text.trimChars piece ≠ []) →
          ofLine line = .ok change) ∧
      ∀ letter tail paths further change, Starts line letter tail paths further change →
        (IsWellFormed line change ↔
          IsScore letter tail ∧ further = [] ∧ change.previousPath ≠ some "" ∧
            (∀ piece ∈ Text.splitOn '\t' line.toList, Text.trimChars piece ≠ []) ∧
              (Text.splitOn '\t' line.toList).head? = some (letter :: tail)) :=
  ⟨fun _ => ofLine_eq_ok_iff, fun _ => ofLine_eq_error_iff,
    fun _ wellFormed visible => wellFormed.ofLine_eq visible,
    fun _ _ _ _ _ starts => starts.isWellFormed_iff⟩

/-- A rename with a score and with blanks around a path. -/
theorem ofLine_accepts_rename :
    let line := "R087\t old.ts\tnew.ts"
    let change : Change := ⟨"new.ts", .renamed, some "old.ts", none⟩
    Starts line 'R' ['0', '8', '7'] ["old.ts", "new.ts"] [] change ∧
      IsWellFormed line change ∧ ofLine line = .ok change := by
  intro line change
  have starts : Starts line 'R' ['0', '8', '7'] ["old.ts", "new.ts"] [] change :=
    ⟨by decide, .renamed "old.ts" "new.ts", by decide⟩
  obtain ⟨-, -, accepted, wellFormed_iff⟩ := ofLine_accepts line
  have wellFormed : IsWellFormed line change :=
    (wellFormed_iff _ _ _ _ _ starts).mpr
      ⟨⟨List.all_iff_forall_prop.mp rfl, by decide⟩, rfl, by decide, by decide, by decide⟩
  exact ⟨starts, wellFormed, accepted change wellFormed (by decide)⟩

/-- A rename of nothing is accepted, and so is any word that begins with a letter of a status. -/
theorem ofLine_accepts_malformed :
    let nothing := "R100\t./\tb.ts"
    let word := "Moved\ta.ts\tb.ts"
    (ofLine nothing = .ok ⟨"b.ts", .renamed, some "", none⟩ ∧
        ¬IsWellFormed nothing ⟨"b.ts", .renamed, some "", none⟩) ∧
      ofLine word = .ok (.modified "a.ts") ∧ ¬IsWellFormed word (.modified "a.ts") := by
  intro nothing word
  have renamed : Starts nothing 'R' ['1', '0', '0'] ["./", "b.ts"] []
      ⟨"b.ts", .renamed, some "", none⟩ :=
    ⟨by decide, .renamed "./" "b.ts", by decide⟩
  have modified : Starts word 'M' ['o', 'v', 'e', 'd'] ["a.ts"] ["b.ts"] (.modified "a.ts") :=
    ⟨by decide, .modified "a.ts", by decide⟩
  refine ⟨⟨ofLine_eq_ok_iff.mpr ⟨_, _, _, _, renamed⟩, fun wellFormed => ?_⟩,
    ofLine_eq_ok_iff.mpr ⟨_, _, _, _, modified⟩, fun wellFormed => ?_⟩
  · exact (renamed.isWellFormed_iff.mp wellFormed).2.2.1 rfl
  · exact List.cons_ne_nil _ _ (modified.isWellFormed_iff.mp wellFormed).2.1

end CommitSplit.Change
