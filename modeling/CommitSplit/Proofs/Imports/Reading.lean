import CommitSplit.Files.Tree
import CommitSplit.Imports.Scanner
import CommitSplit.Proofs.Attempt
import Mathlib.Data.List.Forall2

/-!
# Reading the files of a scan

A path at which nothing is counts as an empty file, so it has no dependencies. That is so when a
name is missing on the way. A walk that is stopped by a file in the place of a directory, or by a
name that no file can have, leads to nothing either, but it ends the scan like a file that is no
text.
-/

namespace CommitSplit

/-- Something is there, and it is no text. -/
structure FileStatus.HoldsNoText (status : FileStatus) : Prop where
  there : status.isThere = true
  textless : ∀ text, status.text ≠ .ok text

theorem FileStatus.exists_text_eq_error_iff {status : FileStatus} :
    (∃ cause, cause ≠ .missing ∧ status.text = .error cause) ↔
      status.HoldsNoText ∨ ∃ cause, cause ≠ .missing ∧ status = .unreachable cause := by
  constructor
  · rintro ⟨cause, other, failed⟩
    cases status with
    | unreachable cause' =>
        obtain rfl : cause' = cause := Except.error.inj failed
        exact .inr ⟨cause', other, rfl⟩
    | file bytes | directory =>
        exact .inl ⟨rfl, fun text read => nomatch failed.symm.trans read⟩
  · rintro (⟨there, textless⟩ | ⟨cause, other, rfl⟩)
    · cases status with
      | unreachable cause => cases there
      | directory => exact ⟨.directory, by decide, rfl⟩
      | file bytes =>
          cases decoded : Text.Utf8.text? bytes with
          | none => exact ⟨.notText, by decide, by rw [FileStatus.text, decoded]⟩
          | some text => exact absurd (by rw [FileStatus.text, decoded]) (textless text)
    · exact ⟨cause, other, rfl⟩

/-! ## Walks that are stopped -/

namespace FileTree

variable {tree : FileTree} {place : Place} {segment path : String} {names : List String}
  {cause : ReadFault}

/-- Where the walk of a path begins. -/
def start (path : String) : Place :=
  if Path.isAbsolute path then .top else .inside []

/-- A walk may not go on from a place by a segment: the place is a file, or the name is too long. -/
def IsStoppedAt (tree : FileTree) (place : Place) (segment : String) : Prop :=
  (tree.statusAt place).isFile = true ∨ maxNameLength < segment.utf8ByteSize

/-- A path that leads nowhere although no name is missing on the way. -/
inductive IsObstructed (tree : FileTree) (path : String) : Prop
  | nul : '\x00' ∈ path.toList → IsObstructed tree path
  | long : pathLimit ≤ path.utf8ByteSize → IsObstructed tree path
  | onTheWay {front behind : List String} {segment : String} {place : Place} : path ≠ "" →
      segments path = front ++ segment :: behind →
      front.foldlM tree.walkSegment (start path) = .ok place → tree.IsStoppedAt place segment →
      IsObstructed tree path

/-- A place of the tree is a file, a directory or missing. -/
theorem eq_missing_of_statusAt (status : tree.statusAt place = .unreachable cause) :
    cause = .missing := by
  cases place with
  | above levels | top => cases status
  | inside here =>
      unfold statusAt at status
      dsimp only at status
      split at status
      · cases status
      · split at status
        · cases status
        · exact (FileStatus.unreachable.inj status).symm

theorem exists_walkSegment_eq_error_iff :
    (∃ cause, cause ≠ .missing ∧ tree.walkSegment place segment = .error cause) ↔
      tree.IsStoppedAt place segment := by
  constructor
  · rintro ⟨cause, other, failed⟩
    unfold walkSegment at failed
    split at failed
    · exact .inl ‹_›
    · split at failed
      · cases failed
      · split at failed
        · cases failed
        · unfold down at failed
          split at failed
          · exact .inr ‹_›
          · cases place with
            | above levels | top => exact absurd (Except.error.inj failed).symm other
            | inside here =>
                dsimp only at failed
                split at failed
                · rename_i missing
                  obtain rfl := Except.error.inj failed
                  exact absurd (eq_missing_of_statusAt missing) other
                · cases failed
  · intro stopped
    by_cases file : (tree.statusAt place).isFile = true
    · exact ⟨.throughFile, by decide, by rw [walkSegment, if_pos file]⟩
    · have long : maxNameLength < segment.utf8ByteSize := stopped.resolve_left file
      have plain {dots : String} (short : dots.utf8ByteSize ≤ maxNameLength) : segment ≠ dots := by
        rintro rfl
        omega
      refine ⟨.nameTooLong, by decide, ?_⟩
      have named : ¬(segment = "" || segment = ".") = true := by
        simp [@plain "" (by decide), @plain "." (by decide)]
      rw [walkSegment, if_neg file, if_neg named, if_neg (plain (by decide))]
      unfold down
      rw [if_pos long]

/-- A walk that does not end for want of a name is stopped at some place. -/
theorem exists_foldlM_eq_error_iff :
    (∃ cause, cause ≠ .missing ∧ names.foldlM tree.walkSegment place = .error cause) ↔
      ∃ front segment behind place', names = front ++ segment :: behind ∧
        front.foldlM tree.walkSegment place = .ok place' ∧ tree.IsStoppedAt place' segment := by
  constructor
  · rintro ⟨cause, other, failed⟩
    obtain ⟨front, segment, behind, place', split, reached, failed⟩ :=
      Attempt.exists_of_foldlM_eq_error failed
    exact ⟨front, segment, behind, place', split, reached,
      exists_walkSegment_eq_error_iff.mp ⟨cause, other, failed⟩⟩
  · rintro ⟨front, segment, behind, place', rfl, reached, stopped⟩
    obtain ⟨cause, other, failed⟩ := exists_walkSegment_eq_error_iff.mpr stopped
    refine ⟨cause, other, ?_⟩
    rw [List.foldlM_append, reached]
    change (segment :: behind).foldlM tree.walkSegment place' = .error cause
    rw [List.foldlM_cons, failed]
    rfl

/-- Where more than the name is missing, what is seen of a path is where its walk ends. -/
theorem files_eq_unreachable_iff {cause : ReadFault} (other : cause ≠ .missing) :
    tree.files path = .unreachable cause ↔ tree.walk path = .error cause := by
  unfold files
  cases tree.walk path with
  | ok place => exact ⟨fun status => absurd (eq_missing_of_statusAt status) other, nofun⟩
  | error cause' => simp

/-- A walk along an obstructed path ends for another reason than a missing name. -/
theorem IsObstructed.exists_walk (obstructed : tree.IsObstructed path) :
    ∃ cause, cause ≠ .missing ∧ tree.walk path = .error cause := by
  by_cases nul : '\x00' ∈ path.toList
  · exact ⟨.nulInName, by decide, by rw [walk, if_pos nul]⟩
  by_cases nothing : path = ""
  · subst nothing
    cases obstructed with
    | nul there => exact absurd there nul
    | long long => exact absurd long (by decide)
    | onTheWay some_path => exact absurd rfl some_path
  by_cases long : pathLimit ≤ path.utf8ByteSize
  · exact ⟨.nameTooLong, by decide, by rw [walk, if_neg nul, if_neg nothing, if_pos long]⟩
  · cases obstructed with
    | nul there => exact absurd there nul
    | long there => exact absurd there long
    | onTheWay _ split reached stopped =>
        rw [walk, if_neg nul, if_neg nothing, if_neg long]
        exact exists_foldlM_eq_error_iff.mpr ⟨_, _, _, _, split, reached, stopped⟩

/-- What is seen of an obstructed path is why it leads nowhere. -/
theorem isObstructed_iff :
    tree.IsObstructed path ↔ ∃ cause, cause ≠ .missing ∧ tree.files path = .unreachable cause := by
  constructor
  · intro obstructed
    obtain ⟨cause, other, failed⟩ := obstructed.exists_walk
    exact ⟨cause, other, (files_eq_unreachable_iff other).mpr failed⟩
  · rintro ⟨cause, other, status⟩
    have failed := (files_eq_unreachable_iff other).mp status
    unfold walk at failed
    split at failed
    · exact .nul ‹_›
    · split at failed
      · exact absurd (Except.error.inj failed).symm other
      · split at failed
        · exact .long ‹_›
        · obtain ⟨front, segment, behind, place, split, reached, stopped⟩ :=
            exists_foldlM_eq_error_iff.mp ⟨cause, other, failed⟩
          exact .onTheWay ‹_› split reached stopped

end FileTree

/-! ## Scans that end -/

namespace Scanner

variable {s : Scanner} {requested paths : List String} {path : String}

/-- What is seen of a listed path. -/
def statusOf (s : Scanner) (path : String) : FileStatus :=
  s.files.below s.root (Path.normalize path)

theorem statusOf_eq (files : Files) (root path : String) :
    (Scanner.mk files root).statusOf path = files (Path.join root (Path.normalize path)) := by
  rw [statusOf, Files.below]

theorem exists_content_eq_error_iff :
    (∃ fault, s.content path = .error fault) ↔
      ∃ cause, cause ≠ .missing ∧ (s.files.below s.root path).text = .error cause := by
  unfold content
  cases read : (s.files.below s.root path).text with
  | ok text => simp
  | error cause => cases cause <;> simp

theorem exists_dependencies_eq_error_iff :
    (∃ fault, s.dependencies requested path = .error fault) ↔
      reads (Language.ofPath path) = true ∧ ∃ fault, s.content path = .error fault := by
  unfold dependencies
  dsimp only
  by_cases read : reads (Language.ofPath path) = true
  · rw [if_pos read]
    simp only [Attempt.map_eq_error_iff, read, true_and]
  · rw [if_neg read]
    exact ⟨nofun, fun h => absurd h.1 read⟩

/-- A scan fails exactly when one of its files cannot be read. -/
theorem exists_scan_eq_error_iff :
    (∃ fault, s.scan paths = .error fault) ↔
      ∃ path ∈ paths, reads (Language.ofPath (Path.normalize path)) = true ∧
        ((s.statusOf path).HoldsNoText ∨
          ∃ cause, cause ≠ .missing ∧ s.statusOf path = .unreachable cause) := by
  simp only [scan, Attempt.exists_mapM_eq_error_iff, Attempt.map_eq_error_iff,
    exists_dependencies_eq_error_iff, exists_content_eq_error_iff, statusOf,
    FileStatus.exists_text_eq_error_iff]

theorem ofContent_empty (language : Language) (path : String) :
    Specifier.ofContent language path "" = [] := by
  cases language <;> rfl

/-- Where nothing is there are no dependencies. -/
theorem dependencies_eq_nil {targets : List String}
    (nothing : (s.statusOf path).isThere = false)
    (answered : s.dependencies requested (Path.normalize path) = .ok targets) : targets = [] := by
  unfold dependencies at answered
  dsimp only at answered
  split at answered
  · obtain ⟨text, read, rfl⟩ := Attempt.map_eq_ok_iff.mp answered
    have empty : text = "" := by
      unfold content at read
      rw [statusOf] at nothing
      cases status : s.files.below s.root (Path.normalize path) with
      | file bytes | directory =>
          rw [status] at nothing
          cases nothing
      | unreachable cause =>
          rw [status] at read
          cases cause <;> cases read
          rfl
    rw [empty, ofContent_empty]
    rfl
  · exact (Except.ok.inj answered).symm

/-- A scan of files in a tree fails exactly when a listed path, in a language that is read, leads to
something that is no text or is obstructed; to an obstructed path there is nothing. Otherwise every
listed path is reported, without dependencies where nothing is. -/
theorem scan_fails_iff (tree : FileTree) (root : String) (paths : List String) :
    let s : Scanner := ⟨tree.files, root⟩
    ((∃ fault, s.scan paths = .error fault) ↔
      ∃ path ∈ paths, reads (Language.ofPath (Path.normalize path)) = true ∧
        ((s.statusOf path).HoldsNoText ∨
          tree.IsObstructed (Path.join root (Path.normalize path)))) ∧
    (∀ path, tree.IsObstructed (Path.join root (Path.normalize path)) →
      (s.statusOf path).isThere = false) ∧
    ∀ modules, s.scan paths = .ok modules →
      List.Forall₂ (fun path module => module.path = Path.normalize path ∧
        ((s.statusOf path).isThere = false → module.dependencies = [])) paths modules := by
  intro s
  have seen (path : String) : s.statusOf path =
      tree.files (Path.join root (Path.normalize path)) := statusOf_eq tree.files root path
  refine ⟨?_, fun path obstructed => ?_, fun modules scanned => ?_⟩
  · simp only [exists_scan_eq_error_iff, FileTree.isObstructed_iff, seen]
  · obtain ⟨cause, -, status⟩ := FileTree.isObstructed_iff.mp obstructed
    rw [seen, status, FileStatus.isThere]
  · unfold scan at scanned
    dsimp only at scanned
    refine (Attempt.mapM_eq_ok_iff.mp scanned).imp fun path module answered => ?_
    obtain ⟨targets, listed, rfl⟩ := Attempt.map_eq_ok_iff.mp answered
    exact ⟨rfl, fun nothing => dependencies_eq_nil nothing listed⟩

/-- A file in the place of a directory ends the scan of what was in the directory. -/
theorem scan_fails_of_replaced_directory :
    let tree := FileTree.ofList [("lib", some [])]
    let s : Scanner := ⟨tree.files, "."⟩
    (s.statusOf "lib/a.ts").isThere = false ∧
      s.scan ["lib/a.ts", "lib"] = .error (.unreadable "./lib/a.ts" .throughFile) ∧
      s.scan ["gone/a.ts", "lib"] = .ok [⟨"gone/a.ts", []⟩, ⟨"lib", []⟩] := by
  decide

end Scanner

end CommitSplit
