import CommitSplit.Files.Tree
import CommitSplit.Imports.Scanner
import CommitSplit.Proofs.Attempt

/-!
# Requests and their spellings

A request enters a scan twice: by the normal forms of its paths, which are the files that are read,
and as it was spelled, as the list of what imports may lead to besides files. So a spelling makes no
difference to what is read and to what the scan fails with. It makes a difference to an import where
a path that was requested is known under its spelling or its normal form but not under both.
-/

namespace CommitSplit.Scanner

variable {s : Scanner} {requested requested' paths : List String} {path : String}

/-- Whether a path is a file below the root. -/
def isFile (s : Scanner) (path : String) : Bool :=
  (s.files.below s.root path).isFile

theorem isKnown_iff :
    s.isKnown requested path = true ↔ path ∈ requested ∨ s.isFile path = true := by
  rw [isKnown, Bool.or_eq_true, decide_eq_true_iff, isFile]

/-! ## The two roles of a request -/

theorem dependencies_congr (known : s.isKnown requested = s.isKnown requested') (path : String) :
    s.dependencies requested path = s.dependencies requested' path := by
  have resolve_eq : s.resolve requested path = s.resolve requested' path := by
    funext specifier
    rw [resolve, resolve, known]
  rw [dependencies, dependencies, resolve_eq]

theorem scan_eq (s : Scanner) (paths : List String) :
    s.scan paths = (paths.map Path.normalize).mapM fun path =>
      (s.dependencies paths path).map fun targets => ⟨path, targets⟩ := by
  simp only [scan, List.mapM_map, Function.comp_def]

/-- Requests with the same normal paths that make the same paths known are answered alike. -/
theorem scan_congr (known : s.isKnown requested = s.isKnown requested')
    (normal : requested.map Path.normalize = requested'.map Path.normalize) :
    s.scan requested = s.scan requested' := by
  rw [scan_eq, scan_eq, normal]
  congr 1
  funext path
  rw [dependencies_congr known]

/-- Whether a file can be read, and so what a scan fails with, is no matter of the request. -/
theorem map_path_scan_congr
    (normal : requested.map Path.normalize = requested'.map Path.normalize) :
    (s.scan requested).map (List.map ScannedModule.path) =
      (s.scan requested').map (List.map ScannedModule.path) := by
  rw [scan_eq, scan_eq, normal, Attempt.map_mapM, Attempt.map_mapM]
  congr 1
  funext path
  rw [dependencies, dependencies]
  split
  · cases s.content path <;> rfl
  · rfl

/-! ## Normal requests -/

/-- Normalizing a request makes the same paths known exactly when every path that it changes is a
file under its spelling, and is known under its normal form. -/
theorem isKnown_map_normalize_iff
    (fixed : ∀ path ∈ paths, Path.normalize (Path.normalize path) = Path.normalize path) :
    s.isKnown (paths.map Path.normalize) = s.isKnown paths ↔
      ∀ path ∈ paths, Path.normalize path ≠ path →
        s.isFile path = true ∧ s.isKnown paths (Path.normalize path) = true := by
  constructor
  · intro same path there other
    have known : s.isKnown (paths.map Path.normalize) path = true := by
      rw [same, isKnown_iff]
      exact .inl there
    refine ⟨(isKnown_iff.mp known).resolve_left fun listed => ?_, ?_⟩
    · obtain ⟨source, hsource, rfl⟩ := List.mem_map.mp listed
      exact other (fixed source hsource)
    · rw [← same, isKnown_iff]
      exact .inl (List.mem_map_of_mem there)
  · intro seen
    funext path
    rw [Bool.eq_iff_iff]
    constructor
    · intro known
      rcases isKnown_iff.mp known with listed | file
      · obtain ⟨source, hsource, rfl⟩ := List.mem_map.mp listed
        by_cases same : Path.normalize source = source
        · rw [same]
          exact isKnown_iff.mpr (.inl hsource)
        · exact (seen source hsource same).2
      · exact isKnown_iff.mpr (.inr file)
    · intro known
      rcases isKnown_iff.mp known with listed | file
      · by_cases same : Path.normalize path = path
        · exact isKnown_iff.mpr (.inl (List.mem_map.mpr ⟨path, listed, same⟩))
        · exact isKnown_iff.mpr (.inr (seen path listed same).1)
      · exact isKnown_iff.mpr (.inr file)

/-! ## Imports of paths that are no files -/

/-- A candidate that is no file is taken when it was requested in that very spelling. -/
theorem resolve_eq_iff_mem {file : String} {specifier : Specifier} {before behind : List String}
    (tried : (specifier.candidates file).tried = before ++ path :: behind)
    (passed : ∀ earlier ∈ before, s.isKnown requested earlier = false)
    (absent : s.isFile path = false) (other : path ≠ (specifier.candidates file).fallback) :
    s.resolve requested file specifier = path ↔ path ∈ requested := by
  have known_iff : s.isKnown requested path = true ↔ path ∈ requested := by
    simp [isKnown_iff, absent]
  rw [← known_iff, resolve]
  constructor
  · intro resolved
    cases found : (specifier.candidates file).tried.find? (s.isKnown requested) with
    | none =>
        rw [found] at resolved
        exact absurd resolved.symm other
    | some first =>
        rw [found] at resolved
        obtain rfl : first = path := resolved
        exact List.find?_some found
  · intro known
    have found : (specifier.candidates file).tried.find? (s.isKnown requested) = some path := by
      rw [List.find?_eq_some_iff_append]
      exact ⟨known, before, behind, tried, fun earlier there => by simp [passed earlier there]⟩
    rw [found]
    rfl

/-- However a request is spelled, a scan reads the same files and fails with the same fault. Its
whole answer is the same when every path that is not spelled normally is a file under its spelling
and known under its normal form. An import of a path that is no file leads to it exactly when the
request spells it as the import does. -/
theorem scan_respects_spelling (s : Scanner) (paths : List String)
    (fixed : ∀ path ∈ paths, Path.normalize (Path.normalize path) = Path.normalize path) :
    ((s.scan (paths.map Path.normalize)).map (List.map ScannedModule.path) =
        (s.scan paths).map (List.map ScannedModule.path)) ∧
    ((∀ path ∈ paths, Path.normalize path ≠ path →
        s.isFile path = true ∧ s.isKnown paths (Path.normalize path) = true) →
      s.scan (paths.map Path.normalize) = s.scan paths) ∧
    ∀ file specifier before path behind,
      (specifier.candidates file).tried = before ++ path :: behind →
      (∀ earlier ∈ before, s.isKnown paths earlier = false) → s.isFile path = false →
      path ≠ (specifier.candidates file).fallback →
      (s.resolve paths file specifier = path ↔ path ∈ paths) := by
  have normal : (paths.map Path.normalize).map Path.normalize = paths.map Path.normalize := by
    rw [List.map_map]
    exact List.map_congr_left fixed
  refine ⟨map_path_scan_congr normal, fun seen => ?_, fun _ _ _ _ _ => resolve_eq_iff_mem⟩
  exact scan_congr ((isKnown_map_normalize_iff fixed).mpr seen) normal

/-- A file is known under every spelling that leads to it, and a file that is gone under its normal
path only. -/
theorem scan_respects_spelling_of_file :
    let tree := FileTree.ofList [("a.ts", some "import './b';\nimport './gone';\n".toUTF8.toList),
      ("b.ts", some [])]
    let s : Scanner := ⟨tree.files, "."⟩
    let paths := ["a.ts", "./b.ts", "gone.ts"]
    (∀ path ∈ paths, Path.normalize (Path.normalize path) = Path.normalize path) ∧
      s.scan ["a.ts", "b.ts", "gone.ts"] = s.scan paths ∧
      s.resolve paths "a.ts" (.relative "./gone") = "gone.ts" := by
  intro tree s paths
  have fixed : ∀ path ∈ paths, Path.normalize (Path.normalize path) = Path.normalize path := by
    decide
  have normal : paths.map Path.normalize = ["a.ts", "b.ts", "gone.ts"] := by decide
  obtain ⟨-, same, leads⟩ := scan_respects_spelling s paths fixed
  refine ⟨fixed, normal ▸ same (by decide), ?_⟩
  have tried : ((Specifier.relative "./gone").candidates "a.ts").tried =
      ["gone"] ++ "gone.ts" :: ["gone.tsx", "gone.js", "gone.jsx", "gone.mjs", "gone.cjs",
        "gone/index.ts", "gone/index.tsx", "gone/index.js", "gone/index.jsx", "gone/index.mjs",
        "gone/index.cjs"] := by
    decide
  exact (leads _ _ _ _ _ tried (by decide) (by decide) (by decide)).mpr
    (by decide)

/-- Without the file, another spelling of the request leaves the import without its extension. -/
theorem scan_depends_on_spelling :
    let tree := FileTree.ofList [("a.ts", some "import './b';\n".toUTF8.toList)]
    let s : Scanner := ⟨tree.files, "."⟩
    let paths := ["a.ts", "./b.ts"]
    (∀ path ∈ paths, Path.normalize (Path.normalize path) = Path.normalize path) ∧
      s.scan paths = .ok [⟨"a.ts", ["b"]⟩, ⟨"b.ts", []⟩] ∧
      s.scan (paths.map Path.normalize) = .ok [⟨"a.ts", ["b.ts"]⟩, ⟨"b.ts", []⟩] := by
  decide +kernel

end CommitSplit.Scanner
