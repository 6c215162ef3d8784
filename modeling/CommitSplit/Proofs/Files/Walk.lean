import CommitSplit.Proofs.Files.History
import CommitSplit.Proofs.Imports.Reading
import CommitSplit.Proofs.Path.Shape

/-!
# Walks along a spelling and its normal form

A file system walks a path segment by segment, while a normal form is found by looking at the text
only. Where there are no links both lead to the same place: going up from a directory that was
entered by its name leads back to where the name was looked up. So a path that leads somewhere leads
there in its normal form as well. The other way round, a spelling leads to what is at its normal
form if all directories are there that it names on its way.
-/

namespace CommitSplit.FileTree

open Path (Segment normalSegments pushSegment)

variable {tree : FileTree} {place next entrance : Place} {here : List String} {name : String}
  {names : List String} {path root : String} {absolute : Bool} {segments front : List Segment}
  {last : Segment}

/-! ## Places that are there -/

theorem isThere_inside_iff :
    (tree.statusAt (.inside here)).isThere = true ↔
      here = [] ∨ ∃ entry ∈ tree.entries, here <+: entry.1 := by
  unfold statusAt
  dsimp only
  split
  · rename_i found
    have exactly := List.find?_some found
    simp only [Bool.and_eq_true, decide_eq_true_eq] at exactly
    exact iff_of_true rfl
      (.inr ⟨_, List.mem_of_find?_eq_some found, exactly.1 ▸ List.prefix_refl _⟩)
  · split
    · rename_i inner
      refine iff_of_true rfl ?_
      simpa [List.any_eq_true] using inner
    · rename_i outer
      refine iff_of_false (by simp [FileStatus.isThere]) ?_
      simpa [List.any_eq_true] using outer

/-- A name leads down to what is there in a directory. -/
theorem exists_isThere_of_down (step : tree.down place name = .ok next) :
    ∃ here, next = .inside (here ++ [name]) ∧
      (tree.statusAt (.inside (here ++ [name]))).isThere = true := by
  unfold down at step
  split at step
  · cases step
  · cases place with
    | above levels | top => cases step
    | inside here =>
        dsimp only at step
        split at step
        · cases step
        · rename_i reached
          obtain rfl := Except.ok.inj step
          refine ⟨here, rfl, ?_⟩
          cases status : tree.statusAt (.inside (here ++ [name])) with
          | unreachable cause => exact absurd status (reached cause)
          | file bytes | directory => rfl

/-- From a place that is there a segment leads to another one. -/
theorem isThere_of_walkSegment (there : (tree.statusAt place).isThere = true)
    (step : tree.walkSegment place name = .ok next) : (tree.statusAt next).isThere = true := by
  unfold walkSegment at step
  split at step
  · cases step
  · split at step
    · exact Except.ok.inj step ▸ there
    · split at step
      · obtain rfl := Except.ok.inj step
        cases place with
        | above levels | top => rfl
        | inside here =>
            rw [up]
            split
            · rfl
            · refine isThere_inside_iff.mpr ?_
              rcases isThere_inside_iff.mp there with rfl | ⟨entry, listed, within⟩
              · exact .inl rfl
              · exact .inr ⟨entry, listed, (List.dropLast_prefix here).trans within⟩
      · obtain ⟨here, rfl, reached⟩ := exists_isThere_of_down step
        exact reached

theorem isThere_of_walk (there : (tree.statusAt place).isThere = true)
    (walked : names.foldlM tree.walkSegment place = .ok next) :
    (tree.statusAt next).isThere = true := by
  induction names generalizing place with
  | nil => exact Except.ok.inj walked ▸ there
  | cons name names ih =>
      rw [List.foldlM_cons] at walked
      obtain ⟨middle, step, rest⟩ := Attempt.bind_eq_ok_iff.mp walked
      exact ih (isThere_of_walkSegment there step) rest

theorem isThere_start (path : String) : (tree.statusAt (start path)).isThere = true := by
  rw [start]
  split
  · rfl
  · exact isThere_inside_iff.mpr (.inl rfl)

/-- What is there and no file is a directory. -/
theorem eq_directory_iff {status : FileStatus} :
    status = .directory ↔ status.isThere = true ∧ status.isFile = false := by
  cases status <;> simp [FileStatus.isThere, FileStatus.isFile]

/-- A path that may be walked at all. -/
structure IsWalkable (path : String) : Prop where
  some_char : path ≠ ""
  no_nul : '\x00' ∉ path.toList
  short : path.utf8ByteSize < pathLimit

theorem walk_eq_ok_iff :
    tree.walk path = .ok place ↔ IsWalkable path ∧
      (FileTree.segments path).foldlM tree.walkSegment (start path) = .ok place := by
  unfold walk
  split
  · exact ⟨nofun, fun h => absurd ‹_› h.1.no_nul⟩
  · split
    · exact ⟨nofun, fun h => absurd ‹_› h.1.some_char⟩
    · split
      · exact ⟨nofun, fun h => absurd h.1.short (Nat.not_lt.mpr ‹_›)⟩
      · exact ⟨fun walked => ⟨⟨‹_›, ‹_›, Nat.not_le.mp ‹_›⟩, walked⟩, And.right⟩

theorem files_of_walk (walked : tree.walk path = .ok place) :
    tree.files path = tree.statusAt place := by
  rw [files, walked]

/-- Something is at a path exactly if the walk arrives. -/
theorem isThere_files_iff :
    (tree.files path).isThere = true ↔ ∃ place, tree.walk path = .ok place := by
  constructor
  · intro there
    unfold files at there
    split at there
    · exact ⟨_, ‹_›⟩
    · cases there
  · rintro ⟨place, walked⟩
    rw [files_of_walk walked]
    exact isThere_of_walk (isThere_start path) (walk_eq_ok_iff.mp walked).2

/-! ## Walking normal segments -/

/-- The names of segments. -/
def namesOf (segments : List Segment) : List String :=
  segments.map String.ofList

@[simp] theorem namesOf_append (front rest : List Segment) :
    namesOf (front ++ rest) = namesOf front ++ namesOf rest :=
  List.map_append

theorem walk_append_singleton :
    (namesOf (front ++ [last])).foldlM tree.walkSegment place = .ok next ↔
      ∃ middle, (namesOf front).foldlM tree.walkSegment place = .ok middle ∧
        tree.walkSegment middle (String.ofList last) = .ok next := by
  rw [namesOf_append, List.foldlM_append, Attempt.bind_eq_ok_iff]
  simp [namesOf]

/-- A segment that may go on can only go on from what is no file. -/
theorem isFile_of_walkSegment (step : tree.walkSegment place name = .ok next) :
    (tree.statusAt place).isFile = false := by
  unfold walkSegment at step
  split at step
  · cases step
  · exact Bool.eq_false_iff.mpr ‹_›

theorem walkSegment_dot (plain : (tree.statusAt place).isFile = false)
    (dot : last = [] ∨ last = Path.here) :
    tree.walkSegment place (String.ofList last) = .ok place := by
  have dots : ∀ last ∈ [[], Path.here],
      (String.ofList last = "" || String.ofList last = ".") = true := by decide
  rw [walkSegment, if_neg (by simp [plain]), if_pos (dots last (by simpa using dot))]

theorem walkSegment_above (plain : (tree.statusAt place).isFile = false) :
    tree.walkSegment place (String.ofList Path.above) = .ok (up place) := by
  rw [walkSegment, if_neg (by simp [plain]), if_neg (by decide), if_pos (by decide)]

/-- Going up leads back to where a name was looked up. -/
theorem up_of_walkSegment (named : last ≠ [] ∧ last ≠ Path.here) (plain : last ≠ Path.above)
    (step : tree.walkSegment place (String.ofList last) = .ok next) : up next = place := by
  generalize spelled : String.ofList last = name at step
  have unlike {cs : List Char} (other : last ≠ cs) : name ≠ String.ofList cs := by
    rw [← spelled]
    exact fun same => other (String.ofList_injective same)
  cases steps_of_walkSegment step with
  | stay dot => exact absurd dot (not_or.mpr ⟨unlike named.1, unlike named.2⟩)
  | up => exact absurd rfl (unlike plain)
  | down _ _ => simp [up]

/-- Where a walk goes up, its normal segments drop the name that they end with, or go up as well. -/
theorem walk_push_above {stack : List Segment} (rooted : absolute = true → entrance = .top)
    (normal : Path.IsNormal absolute stack)
    (arrived : (namesOf stack).foldlM tree.walkSegment entrance = .ok place)
    (plain : (tree.statusAt place).isFile = false) :
    (namesOf (pushSegment absolute stack.reverse Path.above).reverse).foldlM tree.walkSegment
      entrance = .ok (up place) := by
  have climbed : (namesOf (stack ++ [Path.above])).foldlM tree.walkSegment entrance =
      .ok (up place) :=
    walk_append_singleton.mpr ⟨place, arrived, walkSegment_above plain⟩
  have no_dot : ¬ (Path.above = [] ∨ Path.above = Path.here) := by decide
  unfold pushSegment
  rw [if_neg no_dot, if_pos rfl]
  rcases List.eq_nil_or_concat' stack with rfl | ⟨stack, top, rfl⟩
  · cases absolute with
    | false => exact climbed
    | true =>
        -- Above the root there is only the root.
        obtain rfl : entrance = place := Except.ok.inj arrived
        rw [rooted rfl]
        rfl
  · obtain ⟨before, front_walked, entered⟩ := walk_append_singleton.mp arrived
    simp only [List.reverse_append, List.reverse_singleton, List.singleton_append]
    split
    · rename_i plain
      rw [List.reverse_reverse, up_of_walkSegment (normal.named top (by simp)) plain entered]
      exact front_walked
    · rename_i climbs
      rw [not_not] at climbs
      subst climbs
      cases absolute with
      | false => simpa using climbed
      | true => exact absurd (by simp) (normal.rooted rfl)

/-- The segments of a normal form follow each step of a walk. -/
theorem walk_pushSegment {stack : List Segment} (rooted : absolute = true → entrance = .top)
    (normal : Path.IsNormal absolute stack)
    (arrived : (namesOf stack).foldlM tree.walkSegment entrance = .ok place)
    (step : tree.walkSegment place (String.ofList last) = .ok next) :
    (namesOf (pushSegment absolute stack.reverse last).reverse).foldlM tree.walkSegment entrance =
      .ok next := by
  have open_place := isFile_of_walkSegment step
  unfold pushSegment
  by_cases dot : last = [] ∨ last = Path.here
  · rw [walkSegment_dot open_place dot] at step
    rwa [if_pos dot, List.reverse_reverse, ← Except.ok.inj step]
  by_cases climb : last = Path.above
  · subst climb
    rw [walkSegment_above open_place] at step
    rw [← Except.ok.inj step]
    exact walk_push_above rooted normal arrived open_place
  · rw [if_neg dot, if_neg climb, List.reverse_cons, List.reverse_reverse]
    exact walk_append_singleton.mpr ⟨place, arrived, step⟩

/-- A walk comes to the same place along the normal segments. -/
theorem walk_normalSegments (rooted : absolute = true → entrance = .top)
    (walked : (namesOf segments).foldlM tree.walkSegment entrance = .ok place) :
    (namesOf (normalSegments absolute segments)).foldlM tree.walkSegment entrance = .ok place := by
  induction segments using List.reverseRecOn generalizing place with
  | nil => exact walked
  | append_singleton front last ih =>
      obtain ⟨middle, walked, step⟩ := walk_append_singleton.mp walked
      rw [Path.normalSegments_append_singleton]
      exact walk_pushSegment rooted (Path.isNormal_normalSegments absolute front) (ih walked) step

/-- The last segment leads on from the directory in front of it if the normal segments lead
anywhere. -/
theorem exists_walkSegment_of_normal (rooted : absolute = true → entrance = .top)
    (walked : (namesOf front).foldlM tree.walkSegment entrance = .ok place)
    (plain : (tree.statusAt place).isFile = false)
    (arrived : (namesOf (normalSegments absolute (front ++ [last]))).foldlM tree.walkSegment
      entrance = .ok next) :
    ∃ next, tree.walkSegment place (String.ofList last) = .ok next := by
  by_cases dot : last = [] ∨ last = Path.here
  · exact ⟨place, walkSegment_dot plain dot⟩
  by_cases climb : last = Path.above
  · exact ⟨up place, climb ▸ walkSegment_above plain⟩
  have pushed (stack : List Segment) : pushSegment absolute stack last = last :: stack := by
    unfold pushSegment
    rw [if_neg dot, if_neg climb]
  rw [Path.normalSegments_append_singleton, pushed, List.reverse_cons, List.reverse_reverse]
    at arrived
  obtain ⟨middle, front_walked, step⟩ := walk_append_singleton.mp arrived
  obtain rfl : place = middle :=
    Except.ok.inj ((walk_normalSegments rooted walked).symm.trans front_walked)
  exact ⟨next, step⟩

end CommitSplit.FileTree
