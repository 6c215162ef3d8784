import CommitSplit.Files.Tree
import CommitSplit.Proofs.Surface.Baseline
import CommitSplit.Proofs.Surface.Python.Sightings
import CommitSplit.Proofs.Surface.Rust.Sightings
import CommitSplit.Proofs.Surface.Script.Sightings

/-!
# Surfaces list names as they are met

Whatever the language, the reader of a source text notes names one by one. So imports and exports
are never empty texts, none is there twice, and they stand in the order in which they were met
first.

A baseline is compared by the names in it. A text that exports the same names as the one that the
baseline was read from, in whatever order, does not count as changed.
-/

namespace CommitSplit

namespace Grammar

/-- The names of a source text as they are met. -/
def sightings : Grammar → List Char → List Sighting
  | typeScript => Script.sightings .typed
  | tsx => Script.sightings .typedWithElements
  | javaScript => Script.sightings .plain
  | rust => Rust.sightings
  | python => Python.sightings

theorem read_eq_foldl_note (g : Grammar) (content : List Char) :
    g.read content = (g.sightings content).foldl SurfaceNames.note .empty := by
  cases g with
  | typeScript | tsx | javaScript => exact Script.read_eq_foldl_note _ content
  | rust => exact Rust.read_eq_foldl_note content
  | python => exact Python.read_eq_foldl_note content

theorem records_read (g : Grammar) (content : List Char) :
    (g.read content).Records (g.sightings content) := by
  rw [read_eq_foldl_note]
  exact .foldl _

end Grammar

theorem SurfaceNames.extract_eq {g : Grammar} {path : String}
    (known : Grammar.ofPath? path = some g) (content : String) :
    extract path content = .ok (g.read content.toList) := by
  rw [extract, known]

namespace Baselines

variable {b : Baselines} {path : String} {exports before : List String}

theorem get?_insert (b : Baselines) (path : String) (exports : List String) :
    (b.insert path exports).get? (Path.normalize path) = some exports := by
  rw [get?, insert, List.lookup_cons_self]

theorem differs_eq_false_iff (known : b.get? path = some before) :
    b.differs path exports = false ↔ ∀ name, name ∈ exports ↔ name ∈ before := by
  rw [differs, known, Option.any_some, Bool.not_eq_false', SurfaceNames.sameNames_iff]

end Baselines

/-- What a file exports is compared with what its baseline was read from. -/
theorem Surface.ofFile_insertText {files : Files} {root path previous content : String}
    {before after : SurfaceNames} (b : Baselines)
    (read_before : SurfaceNames.extract path previous = .ok before)
    (opened : (files.below root (Path.normalize path)).text = .ok content)
    (read_after : SurfaceNames.extract (Path.normalize path) content = .ok after) :
    ∃ b', b.insertText path previous = .ok b' ∧
      ofFile files root b' path =
        .ok ⟨after.imports, after.exports, b'.differs (Path.normalize path) after.exports⟩ ∧
      b'.get? (Path.normalize path) = some before.exports := by
  refine ⟨b.insert path before.exports, ?_, ?_, Baselines.get?_insert b path before.exports⟩
  · rw [Baselines.insertText, read_before]
  · rw [ofFile]
    refine Attempt.bind_eq_ok_iff.mpr ⟨content, ?_, ?_⟩
    · exact Attempt.mapError_eq_ok_iff.mpr opened
    · exact Attempt.bind_eq_ok_iff.mpr ⟨after, read_after, rfl⟩

/-- In every language that has a grammar, imports and exports are listed as they are met. A file
counts as unchanged just if it exports the names of the text that its baseline was read from. -/
theorem Surface.lists_names_as_met :
    (∀ (g : Grammar) (path content : String), Grammar.ofPath? path = some g →
      ∃ names, SurfaceNames.extract path content = .ok names ∧
        names.Records (g.sightings content.toList)) ∧
    ∀ (files : Files) (root : String) (b : Baselines) (path previous content : String)
      (before after : SurfaceNames),
      SurfaceNames.extract path previous = .ok before →
      (files.below root (Path.normalize path)).text = .ok content →
      SurfaceNames.extract (Path.normalize path) content = .ok after →
      ∃ b' surface, b.insertText path previous = .ok b' ∧
        ofFile files root b' path = .ok surface ∧
        surface.imports = after.imports ∧ surface.exports = after.exports ∧
        (surface.changed = false ↔ ∀ name, name ∈ after.exports ↔ name ∈ before.exports) := by
  constructor
  · intro g path content known
    exact ⟨g.read content.toList, SurfaceNames.extract_eq known content, g.records_read _⟩
  · intro files root b path previous content before after read_before opened read_after
    obtain ⟨b', recorded, read, listed⟩ := ofFile_insertText b read_before opened read_after
    exact ⟨b', _, recorded, read, rfl, rfl, Baselines.differs_eq_false_iff listed⟩

/-- The same names in another order, one of them in another form. -/
theorem Surface.lists_names_as_met_of_reordered :
    let content := "import './x';\nexport const a = 1, b = 2;\nimport './x';\n"
    let previous := "export { b };\nexport function a() {}\n"
    let files := (FileTree.ofList [("a.ts", some (Text.Utf8.encode content))]).files
    (∃ names, SurfaceNames.extract "./a.ts" content = .ok names ∧
      names.Records (Grammar.typeScript.sightings content.toList)) ∧
    ∃ b surface, Baselines.empty.insertText "./a.ts" previous = .ok b ∧
      ofFile files "." b "./a.ts" = .ok surface ∧
      surface.imports = ["./x"] ∧ surface.exports = ["a", "b"] ∧ surface.changed = false := by
  intro content previous files
  have read_before : SurfaceNames.extract "./a.ts" previous = .ok ⟨[], ["b", "a"]⟩ := by
    decide +kernel
  have opened : (files.below "." (Path.normalize "./a.ts")).text = .ok content := by
    decide
  have read_after : SurfaceNames.extract (Path.normalize "./a.ts") content =
      .ok ⟨["./x"], ["a", "b"]⟩ := by
    decide +kernel
  refine ⟨lists_names_as_met.1 .typeScript "./a.ts" content (by decide), ?_⟩
  obtain ⟨b, surface, recorded, read, imports_eq, exports_eq, unchanged_iff⟩ :=
    lists_names_as_met.2 files "." .empty "./a.ts" previous content _ _ read_before opened
      read_after
  refine ⟨b, surface, recorded, read, imports_eq, exports_eq, unchanged_iff.mpr fun name => ?_⟩
  simp [or_comm]

end CommitSplit
