import CommitSplit.CommandLine.Execution
import CommitSplit.Proofs.Files.Spelling

/-!
# Paths that are given alone

Whether a path that is given alone was changed or deleted is asked of the file system, under the
spelling that was given, while the change names the normal path. For a plain spelling both mean the
same file as long as every directory is there that the spelling names on its way. A spelling with
backslashes, or with blanks around it, is not what the file system calls the file, so the file
counts as deleted.
-/

namespace CommitSplit.CommandLine

open Path (IsPlain normalize)

theorem modified_ne_deleted (path : String) : Change.modified path ≠ Change.deleted path :=
  fun same => nomatch congrArg Change.kind same

theorem changeAt_eq_modified_iff {s : Surroundings} {root path : String} :
    changeAt s root path = .modified path ↔ (s.files.below root path).isThere = true := by
  rw [changeAt]
  split
  · exact iff_of_true rfl ‹_›
  · exact iff_of_false (modified_ne_deleted path).symm ‹_›

theorem changeAt_eq_deleted_iff {s : Surroundings} {root path : String} :
    changeAt s root path = .deleted path ↔ ¬(s.files.below root path).isThere = true := by
  rw [changeAt]
  split
  · exact iff_of_false (modified_ne_deleted path) (not_not.mpr ‹_›)
  · exact iff_of_true rfl ‹_›

/-- A path in a plain spelling counts as modified exactly if something is at its normal form and the
directories are there that the spelling names on its way; otherwise it counts as deleted. So plain
spellings of a path whose directories are there are taken alike. In a tree of plain names a path in
any other spelling counts as deleted. -/
theorem changeAt_spelling (tree : FileTree) (input : List UInt8) (history : History)
    (root path : String) (some_root : root ≠ "") :
    let s : Surroundings := ⟨tree.files, input, history⟩
    (changeAt s root path = .modified path ∨ changeAt s root path = .deleted path) ∧
      (IsPlain path.toList →
        (changeAt s root path = .modified path ↔
          (tree.files.below root (normalize path)).isThere = true ∧ tree.IsPassable root path)) ∧
      (∀ other, IsPlain path.toList → IsPlain other.toList → tree.IsPassable root path →
        tree.IsPassable root other → normalize other = normalize path →
          changeAt s root other = changeAt s root path) ∧
      (tree.HasPlainNames → ¬IsPlain path.toList → changeAt s root path = .deleted path) := by
  intro s
  have either (path : String) :
      changeAt s root path = .modified path ∨ changeAt s root path = .deleted path := by
    rw [changeAt_eq_modified_iff, changeAt_eq_deleted_iff]
    exact Classical.em _
  have spelled {path : String} (plain : IsPlain path.toList) :
      changeAt s root path = .modified path ↔
        (tree.files.below root (normalize path)).isThere = true ∧ tree.IsPassable root path :=
    changeAt_eq_modified_iff.trans (FileTree.isThere_below_iff some_root plain)
  refine ⟨either path, spelled, fun other plain plain' passable passable' same => ?_,
    fun names other => ?_⟩
  · have modified : Change.modified other = Change.modified path := by
      rw [Change.modified, Change.modified, Change.new, Change.new, same]
    have deleted : Change.deleted other = Change.deleted path := by
      rw [Change.deleted, Change.deleted, Change.new, Change.new, same]
    have alike : changeAt s root other = .modified other ↔
        changeAt s root path = .modified path := by
      rw [spelled plain, spelled plain', same]
      exact and_congr_right fun _ => iff_of_true passable' passable
    rcases either path with taken | taken
    · rw [taken, alike.mpr taken, modified]
    · rcases either other with taken' | taken'
      · exact absurd ((alike.mp taken').symm.trans taken) (modified_ne_deleted path)
      · rw [taken, taken', deleted]
  · exact changeAt_eq_deleted_iff.mpr fun there => other (names.isPlain_of_isThere some_root there)

/-- A way through the directory above, and a backslash. -/
theorem changeAt_spelling_of_detour :
    let tree := FileTree.ofList [("src/a.ts", some [])]
    let s : Surroundings := ⟨tree.files, [], History.none⟩
    changeAt s "." "src/../src/a.ts" = .modified "src/../src/a.ts" ∧
      tree.IsPassable "." "src/../src/a.ts" ∧
      changeAt s "." "src\\a.ts" = .deleted "src\\a.ts" := by
  intro tree s
  obtain ⟨-, plainly, -, -⟩ :=
    changeAt_spelling tree [] History.none "." "src/../src/a.ts" (by decide)
  obtain ⟨-, -, -, otherwise⟩ := changeAt_spelling tree [] History.none "." "src\\a.ts" (by decide)
  have taken : changeAt s "." "src/../src/a.ts" = .modified "src/../src/a.ts" := by
    decide
  have passable := ((plainly (by decide)).mp taken).2
  exact ⟨taken, passable, otherwise (by decide) (by decide +kernel)⟩

/-- The file is there and counts as deleted: because of a backslash, of a blank, and of a directory
that is gone. A file that is not there counts as modified because of a name with a backslash. -/
theorem changeAt_depends_on_spelling :
    let tree := FileTree.ofList [("src/a.ts", some []), ("b\\c", some [])]
    let s : Surroundings := ⟨tree.files, [], History.none⟩
    (tree.files.below "." "src/a.ts").isThere = true ∧
      (∀ path ∈ ["src\\a.ts", " src/a.ts", "gone/../src/a.ts"],
        normalize path = "src/a.ts" ∧ changeAt s "." path = .deleted "src/a.ts") ∧
      (tree.files.below "." "b/c").isThere = false ∧
      changeAt s "." "b\\c" = .modified "b/c" := by
  decide

end CommitSplit.CommandLine
