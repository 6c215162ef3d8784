import CommitSplit.Proofs.Attempt
import CommitSplit.Proofs.Table
import CommitSplit.Surface.Baseline

/-!
# Surfaces against baselines

A file that holds what its baseline was read from exports the names that the baseline lists, so its
surface counts as unchanged.
-/

namespace CommitSplit

variable {files : Files} {root path : String} {b : Baselines} {surface : Surface}

theorem SurfaceNames.sameNames_self (names : List String) : sameNames names names = true := by
  simp [sameNames]

/-- The exports of a text in the language of a path; none if there is no grammar for it. -/
def SurfaceNames.exportsOf (path content : String) : List String :=
  match extract path content with
  | .ok names => names.exports
  | .error _ => []

theorem SurfaceNames.exportsOf_of_extract {names : SurfaceNames} {content : String}
    (read : extract path content = .ok names) : exportsOf path content = names.exports := by
  rw [exportsOf, read]

/-- A text can be read exactly in the languages that have a grammar. -/
theorem SurfaceNames.isSome_ofPath?_of_extract {names : SurfaceNames} {content : String}
    (read : extract path content = .ok names) : (Grammar.ofPath? path).isSome = true := by
  unfold extract at read
  split at read
  · rename_i found
    rw [found]
    rfl
  · cases read

namespace Baselines

theorem insertText_eq (known : (Grammar.ofPath? path).isSome = true) (content : String) :
    b.insertText path content = .ok (b.insert path (SurfaceNames.exportsOf path content)) := by
  obtain ⟨g, found⟩ := Option.isSome_iff_exists.mp known
  simp only [insertText, SurfaceNames.exportsOf, SurfaceNames.extract, found]

/-- Nothing differs from a baseline with the same names. -/
theorem differs_eq_false_of_get? {exports : List String} (known : b.get? path = some exports) :
    b.differs path exports = false := by
  rw [differs, known, Option.any_some, SurfaceNames.sameNames_self]
  rfl

end Baselines

/-- What a surface was read from. -/
theorem Surface.exists_of_ofFile (normal : Path.normalize path = path)
    (read : ofFile files root b path = .ok surface) :
    (Grammar.ofPath? path).isSome = true ∧
      ∃ content, (files.below root path).text = .ok content ∧
        surface.exports = SurfaceNames.exportsOf path content ∧
        surface.changed = b.differs path surface.exports := by
  rw [ofFile, normal] at read
  obtain ⟨content, opened, read⟩ := Attempt.bind_eq_ok_iff.mp read
  obtain ⟨names, extracted, ⟨⟩⟩ := Attempt.bind_eq_ok_iff.mp read
  exact ⟨SurfaceNames.isSome_ofPath?_of_extract extracted, content,
    Attempt.mapError_eq_ok_iff.mp opened, (SurfaceNames.exportsOf_of_extract extracted).symm, rfl⟩

/-- The surface of a file is unchanged if its baseline was read from the content that it has. -/
theorem Surface.changed_eq_false_of_get? {content : String} (normal : Path.normalize path = path)
    (opened : (files.below root path).text = .ok content)
    (known : b.get? path = some (SurfaceNames.exportsOf path content))
    (read : ofFile files root b path = .ok surface) : surface.changed = false := by
  obtain ⟨-, content', opened', exports_eq, changed_eq⟩ := exists_of_ofFile normal read
  cases opened.symm.trans opened'
  rw [changed_eq, exports_eq]
  exact Baselines.differs_eq_false_of_get? known

end CommitSplit
