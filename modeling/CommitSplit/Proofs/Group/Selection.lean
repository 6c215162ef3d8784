import CommitSplit.Group.ChangeSet
import CommitSplit.Options
import CommitSplit.Proofs.FirstSeen
import CommitSplit.Proofs.Attempt
import Mathlib.Data.List.Find

/-!
# What a change set selects

The changes name normal paths. A change set splits the distinct ones, in the order of their first
occurrences, into those that take part and those that are excluded. Collecting a change set again
under the same exclusion changes nothing as long as its paths are normal.
-/

namespace CommitSplit

/-- A pattern of the options matches a path. -/
def Options.Excludes (options : Options) (path : String) : Prop :=
  ∃ pattern ∈ options.exclude, ∃ glob, Glob.parse pattern = .ok glob ∧ glob.accepts path = true

/-- Whether one pattern matches is found by reading it. -/
theorem Options.excludes_iff_any {options : Options} {path : String} :
    (options.exclude.any fun pattern =>
        (Glob.parse pattern).toOption.any fun glob => glob.accepts path) = true ↔
      options.Excludes path := by
  rw [List.any_eq_true, Excludes]
  refine exists_congr fun pattern => and_congr_right fun _ => ?_
  cases Glob.parse pattern <;> simp [Except.toOption]

instance (options : Options) (path : String) : Decidable (options.Excludes path) :=
  decidable_of_iff _ Options.excludes_iff_any

/-- An exclusion leaves out what one of its patterns matches. -/
theorem Exclusion.excludes_iff {patterns : List String} {exclusion : Exclusion} {path : String}
    (h : Exclusion.ofPatterns patterns = .ok exclusion) :
    exclusion.excludes path = true ↔
      ∃ pattern ∈ patterns, ∃ glob, Glob.parse pattern = .ok glob ∧ glob.accepts path = true := by
  obtain ⟨globs, read, rfl⟩ := Attempt.map_eq_ok_iff.mp h
  rw [Attempt.mapM_eq_ok_iff] at read
  clear h
  rw [excludes]
  induction read with
  | nil => simp
  | @cons pattern glob patterns globs first _ ih =>
      have parsed : Glob.parse pattern = .ok glob := Attempt.mapError_eq_ok_iff.mp first
      rw [List.any_cons, Bool.or_eq_true, List.exists_mem_cons_iff]
      refine or_congr ?_ ih
      simp [parsed]

namespace ChangeSet

variable {exclusion : Exclusion} {changes : List Change} {path : String}

/-- The normal paths that changes name, without the empty one. -/
def named (changes : List Change) : List String :=
  (changes.map fun change => Path.normalize change.path).filter fun path => path ≠ ""

/-- The distinct paths that changes name. -/
def inputs (changes : List Change) : List String :=
  FirstSeen.of (named changes)

theorem mem_inputs :
    path ∈ inputs changes ↔
      (∃ change ∈ changes, Path.normalize change.path = path) ∧ path ≠ "" := by
  simp [inputs, named]

theorem nodup_inputs (changes : List Change) : (inputs changes).Nodup :=
  FirstSeen.nodup_of _

/-- A path precedes another when a change names it before any change names the other. -/
def Precedes (changes : List Change) (a b : String) : Prop :=
  let spelled := changes.map fun change => Path.normalize change.path
  spelled.idxOf a < spelled.idxOf b

/-- The inputs are in the order in which changes name them first. -/
theorem pairwise_inputs (changes : List Change) : (inputs changes).Pairwise (Precedes changes) := by
  rw [inputs, named, FirstSeen.of_filter]
  exact (FirstSeen.pairwise_of _).sublist List.filter_sublist

theorem collect_append_singleton (exclusion : Exclusion) (changes : List Change)
    (change : Change) :
    collect exclusion (changes ++ [change]) = add exclusion (collect exclusion changes) change := by
  simp [collect]

theorem inputs_append_singleton (changes : List Change) (change : Change) :
    inputs (changes ++ [change]) =
      if Path.normalize change.path = "" then inputs changes
      else FirstSeen.add (inputs changes) (Path.normalize change.path) := by
  unfold inputs named
  split
  · rename_i blank
    simp [blank]
  · rename_i path
    rw [List.map_append, List.filter_append, List.map_singleton, List.filter_singleton,
      decide_eq_true path, cond_true, FirstSeen.of_append_singleton]

/-- What takes part and what is excluded are the two parts of the inputs. -/
theorem collect_eq (exclusion : Exclusion) (changes : List Change) :
    (collect exclusion changes).paths =
        (inputs changes).filter (fun path => !exclusion.excludes path) ∧
      (collect exclusion changes).excluded = (inputs changes).filter exclusion.excludes := by
  induction changes using List.reverseRecOn with
  | nil => exact ⟨rfl, rfl⟩
  | append_singleton changes change ih =>
      obtain ⟨paths, excluded⟩ := ih
      rw [collect_append_singleton, inputs_append_singleton, add]
      generalize Path.normalize change.path = path
      have known_iff : path ∈ (collect exclusion changes).excluded ∨
          path ∈ (collect exclusion changes).changes.map Change.path ↔ path ∈ inputs changes := by
        rw [excluded, ← ChangeSet.paths, paths, List.mem_filter, List.mem_filter, ← and_or_left]
        simp
      split
      · exact ⟨paths, excluded⟩
      · rw [FirstSeen.add]
        split
        · rename_i known
          rw [if_pos (known_iff.mp known)]
          exact ⟨paths, excluded⟩
        · rename_i fresh
          rw [if_neg (fresh ∘ known_iff.mpr), List.filter_append, List.filter_append, ← paths,
            ← excluded]
          split
          · rename_i out
            exact ⟨by simp [ChangeSet.paths, out], by simp [out]⟩
          · rename_i out
            exact ⟨by simp [ChangeSet.paths, out], by simp [out]⟩

theorem paths_collect (exclusion : Exclusion) (changes : List Change) :
    (collect exclusion changes).paths =
      (inputs changes).filter (fun path => !exclusion.excludes path) :=
  (collect_eq exclusion changes).1

theorem excluded_collect (exclusion : Exclusion) (changes : List Change) :
    (collect exclusion changes).excluded = (inputs changes).filter exclusion.excludes :=
  (collect_eq exclusion changes).2

theorem mem_paths_collect :
    path ∈ (collect exclusion changes).paths ↔
      path ∈ inputs changes ∧ exclusion.excludes path = false := by
  simp [paths_collect]

theorem nodup_paths_collect (exclusion : Exclusion) (changes : List Change) :
    (collect exclusion changes).paths.Nodup := by
  rw [paths_collect]
  exact (nodup_inputs changes).filter _

theorem ne_empty_of_mem_paths (h : path ∈ (collect exclusion changes).paths) : path ≠ "" :=
  (mem_inputs.mp (mem_paths_collect.mp h).1).2

/-- Changes whose paths are normal name them as they are. -/
theorem map_normalize_collect
    (normal : ∀ path ∈ (collect exclusion changes).paths, Path.normalize path = path) :
    ((collect exclusion changes).changes.map fun change => Path.normalize change.path) =
      (collect exclusion changes).paths :=
  List.map_congr_left fun change there => normal change.path (List.mem_map_of_mem there)

/-- The selected paths are selected again when they are normal. -/
theorem paths_collect_collect
    (normal : ∀ path ∈ (collect exclusion changes).paths, Path.normalize path = path) :
    (collect exclusion (collect exclusion changes).changes).paths =
      (collect exclusion changes).paths := by
  have unchanged : named (collect exclusion changes).changes =
      (collect exclusion changes).paths := by
    rw [named, map_normalize_collect normal, List.filter_eq_self]
    exact fun path there => decide_eq_true (ne_empty_of_mem_paths there)
  rw [paths_collect, inputs, unchanged, FirstSeen.of_eq_self (nodup_paths_collect _ _),
    List.filter_eq_self]
  intro path there
  rw [(mem_paths_collect.mp there).2, Bool.not_false]

/-! ## First changes -/

/-- The change that names a path first. -/
def first? (changes : List Change) (path : String) : Option Change :=
  changes.find? fun change => Path.normalize change.path = path

theorem normalize_of_first? {first : Change} (found : first? changes path = some first) :
    Path.normalize first.path = path :=
  of_decide_eq_true (List.find?_some found :)

/-- A selected path has a first change. -/
theorem exists_first? (there : path ∈ (collect exclusion changes).paths) :
    ∃ first, first? changes path = some first := by
  have named := (mem_inputs.mp (mem_paths_collect.mp there).1).1
  rw [← Option.isSome_iff_exists, first?, List.find?_isSome]
  simpa using named

theorem first?_append_singleton (changes : List Change) (change : Change) (path : String) :
    first? (changes ++ [change]) path =
      (first? changes path).or
        (if Path.normalize change.path = path then some change else none) := by
  rw [first?, List.find?_append, ← first?, List.find?_singleton]
  simp only [decide_eq_true_eq]

/-- What is selected for a path is the change that names it first. -/
theorem find?_collect (some_path : path ≠ "") (kept : exclusion.excludes path = false) :
    ((collect exclusion changes).changes.find? fun change => change.path = path) =
      (first? changes path).map fun change => { change with path } := by
  induction changes using List.reverseRecOn with
  | nil => rfl
  | append_singleton changes change ih =>
      rw [collect_append_singleton, first?_append_singleton, add]
      by_cases same : Path.normalize change.path = path
      · subst same
        have out : Path.normalize change.path ∉ (collect exclusion changes).excluded := by
          rw [excluded_collect, List.mem_filter, kept]
          simp
        simp only [if_neg some_path, out, false_or, kept, if_true]
        split
        · -- An earlier change names the path, so this one is left out and not the first.
          rename_i known
          obtain ⟨earlier, there, named⟩ := List.mem_map.mp known
          have found : ((collect exclusion changes).changes.find? fun earlier =>
              earlier.path = Path.normalize change.path).isSome = true := by
            rw [List.find?_isSome]
            exact ⟨earlier, there, decide_eq_true named⟩
          rw [ih, Option.isSome_map] at found
          rw [ih, Option.or_of_isSome found]
        · rename_i fresh
          have not_found : ((collect exclusion changes).changes.find? fun earlier =>
              earlier.path = Path.normalize change.path) = none := by
            rw [List.find?_eq_none]
            exact fun earlier there named =>
              fresh (of_decide_eq_true named ▸ List.mem_map_of_mem there)
          have first : first? changes (Path.normalize change.path) = none := by
            rwa [ih, Option.map_eq_none_iff] at not_found
          simp [List.find?_append, not_found, first]
      · rw [if_neg same, Option.or_none, ← ih]
        split
        · rfl
        · split
          · rfl
          · split
            · rfl
            · simp [List.find?_append, same]

/-- When the selected paths are normal the changes before the selection can be asked as well. -/
theorem first?_collect
    (normal : ∀ path ∈ (collect exclusion changes).paths, Path.normalize path = path)
    (there : path ∈ (collect exclusion changes).paths) :
    first? (collect exclusion changes).changes path =
      (first? changes path).map fun change => { change with path } := by
  rw [← find?_collect (ne_empty_of_mem_paths there) (mem_paths_collect.mp there).2, first?]
  refine List.find?_congr fun change selected => ?_
  rw [normal change.path (List.mem_map_of_mem selected)]

end ChangeSet

end CommitSplit
