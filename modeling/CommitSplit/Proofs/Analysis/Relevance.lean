import CommitSplit.Proofs.Analysis.Cancellation

/-!
# Changes that do not count

A change of an excluded path and a change of a path that was named before take no part in an
analysis. The selection reads the list of changes once and drops them there, and every later stage
works on what was selected. So an analysis without them ends in the same way: only the excluded files
and the warning about their number are missing from its report.
-/

namespace CommitSplit

namespace ChangeSet

/-- The changes that count, given the normal paths of the changes in front of them: neither excluded
nor repeated. A blank path is no path, so changes that have one all stay. -/
def relevantBehind (options : Options) : List String → List Change → List Change
  | _, [] => []
  | named, change :: changes =>
    let path := Path.normalize change.path
    let rest := relevantBehind options (path :: named) changes
    if path ≠ "" ∧ (options.Excludes path ∨ path ∈ named) then rest else change :: rest

/-- The changes without those of excluded paths and those that repeat a path. -/
def relevant (options : Options) (changes : List Change) : List Change :=
  relevantBehind options [] changes

example :
    let options := { Options.default with exclude := ["*.lock"] }
    relevant options [.modified "a", .added "x.lock", .modified "", .deleted "./a", .added " "] =
      [.modified "a", .modified "", .added " "] := by
  decide +kernel

/-- A selection, the same one without its excluded paths, and the paths that were named up to it. -/
structure Narrows (named : List String) (full few : ChangeSet) : Prop where
  changes_eq : few.changes = full.changes
  blank_eq : few.blank = full.blank
  excluded_eq : few.excluded = []
  named_iff : ∀ path, path ≠ "" →
    (path ∈ named ↔ path ∈ full.excluded ∨ path ∈ full.changes.map Change.path)

variable {options : Options} {exclusion : Exclusion} {named : List String} {full few : ChangeSet}
  {change : Change}

/-- Whether a change counts or not, its path is named behind it. -/
theorem Narrows.mem_cons_iff (h : Narrows named full few) {path other : String}
    (some_path : other ≠ "") :
    other ∈ path :: named ↔
      other = path ∨ other ∈ full.excluded ∨ other ∈ full.changes.map Change.path := by
  rw [List.mem_cons, h.named_iff other some_path]

/-- A change that does not count leaves the selection as it is, or its path is excluded. -/
theorem Narrows.drop (patterns : Exclusion.ofPatterns options.exclude = .ok exclusion)
    (h : Narrows named full few) (some_path : Path.normalize change.path ≠ "")
    (idle : options.Excludes (Path.normalize change.path) ∨ Path.normalize change.path ∈ named) :
    Narrows (Path.normalize change.path :: named) (add exclusion full change) few := by
  rw [h.named_iff _ some_path, Options.Excludes, ← Exclusion.excludes_iff patterns] at idle
  rw [add, if_neg some_path]
  generalize Path.normalize change.path = path at some_path idle
  split
  · rename_i known
    refine ⟨h.changes_eq, h.blank_eq, h.excluded_eq, fun other some_other => ?_⟩
    rw [h.mem_cons_iff some_other, or_iff_right_of_imp]
    rintro rfl
    exact known
  · rename_i fresh
    rw [if_pos (idle.resolve_right fresh)]
    refine ⟨h.changes_eq, h.blank_eq, h.excluded_eq, fun other some_other => ?_⟩
    rw [h.mem_cons_iff some_other, List.mem_append, List.mem_singleton]
    tauto

/-- A change that counts is selected from all changes and from the relevant ones alike. -/
theorem Narrows.keep (patterns : Exclusion.ofPatterns options.exclude = .ok exclusion)
    (h : Narrows named full few)
    (counts : ¬(Path.normalize change.path ≠ "" ∧
      (options.Excludes (Path.normalize change.path) ∨ Path.normalize change.path ∈ named))) :
    Narrows (Path.normalize change.path :: named) (add exclusion full change)
      (add exclusion few change) := by
  rw [add, add]
  generalize Path.normalize change.path = path at counts
  by_cases blank : path = ""
  · rw [if_pos blank, if_pos blank]
    refine ⟨h.changes_eq, congrArg (· + 1) h.blank_eq, h.excluded_eq, fun other some_other => ?_⟩
    rw [h.mem_cons_iff some_other, or_iff_right]
    exact fun same => some_other (same.trans blank)
  · obtain ⟨stays, fresh⟩ := not_or.mp (not_and.mp counts blank)
    rw [Options.Excludes, ← Exclusion.excludes_iff patterns] at stays
    rw [h.named_iff path blank] at fresh
    have fresh' : ¬(path ∈ few.excluded ∨ path ∈ few.changes.map Change.path) := by
      rw [h.excluded_eq, h.changes_eq]
      exact fun known => fresh (.inr (known.resolve_left List.not_mem_nil))
    rw [if_neg blank, if_neg blank, if_neg fresh, if_neg fresh', if_neg stays, if_neg stays]
    refine ⟨?_, h.blank_eq, h.excluded_eq, fun other some_other => ?_⟩
    · rw [h.changes_eq]
    · rw [h.mem_cons_iff some_other, List.map_append, List.mem_append, List.map_singleton,
        List.mem_singleton]
      tauto

theorem Narrows.foldl_add (patterns : Exclusion.ofPatterns options.exclude = .ok exclusion)
    (h : Narrows named full few) (changes : List Change) :
    ∃ named', Narrows named' (changes.foldl (add exclusion) full)
      ((relevantBehind options named changes).foldl (add exclusion) few) := by
  induction changes generalizing named full few with
  | nil => exact ⟨named, h⟩
  | cons change changes ih =>
      rw [List.foldl_cons, relevantBehind]
      split
      · rename_i idle
        exact ih (h.drop patterns idle.1 idle.2)
      · rename_i counts
        rw [List.foldl_cons]
        exact ih (h.keep patterns counts)

theorem Narrows.eq (h : Narrows named full few) : few = { full with excluded := [] } := by
  obtain ⟨changes, excluded, blank⟩ := few
  obtain ⟨changes_eq, blank_eq, excluded_eq, -⟩ := h
  cases changes_eq
  cases blank_eq
  cases excluded_eq
  rfl

/-- The relevant changes are selected as all changes are, but none of them is excluded. -/
theorem collect_relevant (patterns : Exclusion.ofPatterns options.exclude = .ok exclusion)
    (changes : List Change) :
    collect exclusion (relevant options changes) =
      { collect exclusion changes with excluded := [] } := by
  have nothing : Narrows [] empty empty := ⟨rfl, rfl, rfl, fun _ _ => by simp [empty]⟩
  obtain ⟨named, narrowed⟩ := nothing.foldl_add patterns changes
  exact narrowed.eq

end ChangeSet

/-! ## Analyses -/

namespace Engine

/-- What is said about excluded files. -/
def exclusionWarnings (excluded : List String) : List String :=
  if excluded = [] then [] else [toString excluded.length ++ " files excluded by excludeFiles"]

/-- The same report, but without excluded files and without the warning about them. -/
structure OmitsExcluded (full few : Report) : Prop where
  report_eq : few = { full with excluded := [], warnings := few.warnings }
  warnings : ∃ front behind, full.warnings = front ++ exclusionWarnings full.excluded ++ behind ∧
    few.warnings = front ++ behind

theorem conclude_omitsExcluded (exclusion : Exclusion) (set : ChangeSet) (options : Options)
    (graph : Option Graph) (graphWarnings : List String) :
    Attempt.EndSame OmitsExcluded (conclude exclusion set options graph graphWarnings)
      (conclude exclusion { set with excluded := [] } options graph graphWarnings) := by
  have paths_eq : ({ set with excluded := [] } : ChangeSet).paths = set.paths := rfl
  unfold conclude
  dsimp only
  rw [paths_eq]
  cases Group.validate graph set.paths (groupsOf exclusion graph set.changes) with
  | error failure => exact .error
  | ok _ =>
      refine .ok ⟨rfl, selectionWarnings { set with excluded := [] }, graphWarnings ++
        outcomeWarnings ((graph.map Graph.cycles).getD [])
          (groupsOf exclusion graph set.changes), ?_, ?_⟩
      · simp [selectionWarnings, exclusionWarnings]
      · simp

/-- Excluded files and repeated paths are invisible to an analysis. -/
theorem analyze_relevant (engine : Engine) (changes : List Change) (options : Options)
    (c : Cancellation) :
    let run := fun changes => (engine.analyze changes options).start c
    Attempt.EndSame OmitsExcluded (run changes).1
        (run (ChangeSet.relevant options changes)).1 ∧
      (run (ChangeSet.relevant options changes)).2 = (run changes).2 := by
  intro run
  dsimp only [run]
  rw [analyze_eq, analyze_eq, start_analyzeWith Assembly.Stage.sound_oneByOne,
    start_analyzeWith Assembly.Stage.sound_oneByOne]
  cases c.stops with
  | true => exact ⟨.error, rfl⟩
  | false =>
      rw [if_neg Bool.false_ne_true, if_neg Bool.false_ne_true]
      cases patterns : Exclusion.ofPatterns options.exclude with
      | error failure => exact ⟨.error, rfl⟩
      | ok exclusion =>
          dsimp only
          rw [ChangeSet.collect_relevant patterns]
          have mode_eq (set : ChangeSet) :
              modeFor { set with excluded := [] } options = modeFor set options := rfl
          rw [mode_eq]
          generalize ChangeSet.collect exclusion changes = set
          obtain ⟨_ | ⟨graph, warnings⟩, cancels⟩ :=
            engine.graphed (modeFor set options) set.changes options
          · exact ⟨.error, rfl⟩
          · refine ⟨?_, rfl⟩
            dsimp only
            split
            · exact .error
            · exact conclude_omitsExcluded exclusion set options graph warnings

end Engine

end CommitSplit
