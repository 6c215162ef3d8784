import CommitSplit.Files.Tree
import CommitSplit.Imports.Scanner
import CommitSplit.Proofs.Imports.Declarations
import CommitSplit.Proofs.Imports.Headers
import CommitSplit.Proofs.Path.Climbing

/-!
# Imports from packages above

The dots in front of a module lead out of the directory of the file, one package for each dot but
the first. The packages are directories of directories, so an import climbs as `..` would for as
long as the directory has names. One that goes on from there takes a `..` back instead of adding
one, and from the start of all paths it stays where it is.
-/

namespace CommitSplit.Specifier

open Text (Capture Cursor Pattern)
open Text.Pattern

variable {c d : Cursor} {path : String} {content dotted names m : List Char} {dots : Nat}

/-! ## What is found -/

/-- Whether a character may stand behind the dots of a module. -/
def isModuleChar (x : Char) : Bool :=
  Text.isWordChar x || x ∈ ".".toList

/-- Whether a character may stand in a list of names. -/
def isNamesChar (x : Char) : Bool :=
  Text.isWordChar x || x ∈ " \t,*".toList

/-- Any number of dots is a repeated character. -/
theorem many_dot_eq : many (Pattern.text ".") = star true (one (· = '.')) :=
  rfl

/-- The part of the pattern that takes in a module. -/
def modulePattern : Pattern :=
  seq (many (Pattern.text ".")) (many (one isModuleChar))

theorem parts_of_mem_run (h : d ∈ modulePattern.run c) (text : c.rest = m ++ d.rest) :
    ∀ x ∈ m, isModuleChar x = true := by
  obtain ⟨c₁, leading, following⟩ := mem_run_seq.mp h
  rw [many_dot_eq] at leading
  obtain ⟨u, dotted, -, dots⟩ := mem_run_star_one leading
  obtain ⟨v, parted, -, parts⟩ := mem_run_star_one following
  rw [parted, ← List.append_assoc] at dotted
  obtain rfl := List.append_cancel_right (dotted.symm.trans text)
  refine List.forall_mem_append.mpr ⟨fun x there => ?_, parts⟩
  rw [of_decide_eq_true (dots x there)]
  rfl

/-- A statement is found with its module and the names that it imports. -/
theorem mem_run_pythonFrom (h : d ∈ pythonFrom.run c) :
    ∃ module names offset offset',
      d.captures = (2, ⟨offset', names⟩) :: (1, ⟨offset, module⟩) :: c.captures ∧
        (∀ x ∈ module, isModuleChar x = true) ∧ ∀ x ∈ names, isNamesChar x = true := by
  obtain ⟨c₁, indent, h⟩ := mem_run_seq.mp h
  obtain ⟨c₂, keyword, h⟩ := mem_run_seq.mp h
  obtain ⟨c₃, gap, h⟩ := mem_run_seq.mp h
  obtain ⟨_, first_group, h⟩ := mem_run_seq.mp h
  obtain ⟨module, text, in_module, rfl⟩ := mem_run_group rfl first_group
  obtain ⟨c₄, gap', h⟩ := mem_run_seq.mp h
  obtain ⟨c₅, keyword', h⟩ := mem_run_seq.mp h
  obtain ⟨c₆, gap'', h⟩ := mem_run_seq.mp h
  obtain ⟨c₇, opening, h⟩ := mem_run_seq.mp h
  obtain ⟨c₈, skipped, second_group⟩ := mem_run_seq.mp h
  obtain ⟨names, text', in_names, rfl⟩ := mem_run_group rfl second_group
  have front : c₃.captures = c.captures := by
    rw [captures_of_isPlain rfl gap, captures_of_isPlain rfl keyword,
      captures_of_isPlain rfl indent]
  have middle : c₈.captures = (1, ⟨c₃.offset, module⟩) :: c₃.captures := by
    rw [captures_of_isPlain rfl skipped, captures_of_isPlain rfl opening,
      captures_of_isPlain rfl gap'', captures_of_isPlain rfl keyword',
      captures_of_isPlain rfl gap']
  refine ⟨module, names, c₃.offset, c₈.offset, by rw [middle, front],
    parts_of_mem_run in_module text, ?_⟩
  obtain ⟨u, -, listed, -, accepted⟩ := mem_run_plus in_names
  obtain rfl := List.append_cancel_right (listed.symm.trans text')
  exact accepted

/-- The modules that a relative import names. -/
def modulesOf (dotted names : List Char) : List (List Char) :=
  if dotted = [] then importedNames names else [dotted]

/-- A module as a path. -/
def slashed (m : List Char) : String :=
  String.ofList (dotsToSlashes m)

/-- The path that is tried for a module behind some dots. -/
def triedPath (path : String) (dots : Nat) (m : List Char) : String :=
  Path.normalize (Path.entryOf (packageOf path dots) (slashed m))

/-- The path that the dots stand for: `..` for each but the first, behind the directory of the
file. -/
def meantPath (path : String) (dots : Nat) (m : List Char) : String :=
  Path.normalize (Path.entryOf (Path.parent path) (Path.upwards (dots - 1) (slashed m)))

/-- A relative import that the search finds in a text. -/
structure FindsRelative (content : List Char) (dots : Nat) (dotted names : List Char) : Prop where
  some_dot : 1 ≤ dots
  first : dotted.head? ≠ some '.'
  found : ∃ d ∈ pythonFrom.findAll content,
    (d.capture? 1).map Capture.text = some (List.replicate dots '.' ++ dotted) ∧
      (d.capture? 2).map Capture.text = some names

theorem moduleIn_eq (package : String) (m : List Char) :
    moduleIn package m = pythonModule (Path.normalize (Path.entryOf package (slashed m))) := by
  rw [moduleIn, Path.entryOf, slashed]

/-- What a relative import leads to. -/
theorem ofFromImport_relative (some_dot : 1 ≤ dots) (first : dotted.head? ≠ some '.') :
    ofFromImport path (List.replicate dots '.' ++ dotted) names =
      (modulesOf dotted names).map (moduleIn (packageOf path dots)) := by
  have behind : dotted.takeWhile (· = '.') = [] ∧ dotted.dropWhile (· = '.') = dotted := by
    cases dotted with
    | nil => exact ⟨rfl, rfl⟩
    | cons x dotted =>
        have other : x ≠ '.' := by simpa using first
        simp [other]
  have leading : ((List.replicate dots '.' ++ dotted).takeWhile (· = '.')).length = dots := by
    rw [List.takeWhile_append_of_pos (by simp), behind.1]
    simp
  have rest : (List.replicate dots '.' ++ dotted).dropWhile (· = '.') = dotted := by
    rw [List.dropWhile_append_of_pos (by simp), behind.2]
  unfold ofFromImport
  dsimp only
  rw [leading, rest, if_neg (Nat.one_le_iff_ne_zero.mp some_dot), modulesOf]
  split <;> rfl

/-- It is among the specifiers of the file. -/
theorem FindsRelative.subset_inPython (h : FindsRelative content dots dotted names) :
    ofFromImport path (List.replicate dots '.' ++ dotted) names ⊆ inPython path content := by
  intro s there
  obtain ⟨d, found, first, second⟩ := h.found
  obtain ⟨module, captured, same⟩ := Option.map_eq_some_iff.mp first
  obtain ⟨list, captured', rfl⟩ := Option.map_eq_some_iff.mp second
  refine List.mem_map.mpr ⟨(module.offset, s), mem_sortByOffset.mpr ?_, rfl⟩
  refine List.mem_append_left _ (List.mem_flatMap.mpr ⟨d, found, ?_⟩)
  rw [captured, captured']
  dsimp only
  rw [same]
  exact List.mem_map_of_mem there

/-! ## Where it leads -/

/-- A module that is named begins with a visible character that separates no paths. -/
theorem startsWithName_slashed (some_char : m ≠ [])
    (first : ∀ x ∈ m.head?, Text.isBlank x = false ∧ isNamesChar x = true) :
    Path.StartsWithName (slashed m) := by
  obtain ⟨x, m, rfl⟩ := List.exists_cons_of_ne_nil some_char
  obtain ⟨visible, accepted⟩ := first x rfl
  have plain {y : Char} (other : isNamesChar y = false) : x ≠ y := by
    rintro rfl
    rw [accepted] at other
    cases other
  have head : (slashed (x :: m)).toList.head? = some x := by
    simp [slashed, dotsToSlashes, plain (y := '.') (by decide)]
  rw [Path.StartsWithName, head]
  simp only [Option.mem_def, Option.some.injEq, forall_eq']
  exact ⟨visible, plain (by decide), plain (by decide)⟩

theorem slashed_undotted (m : List Char) : '.' ∉ (slashed m).toList := by
  rw [slashed, String.toList_ofList, dotsToSlashes]
  intro there
  obtain ⟨x, -, same⟩ := List.mem_map.mp there
  split at same
  · exact absurd same (by decide)
  · exact absurd same ‹_›

/-- Every module that a relative import names can be continued from a directory. -/
theorem FindsRelative.startsWithName (h : FindsRelative content dots dotted names)
    (named : m ∈ modulesOf dotted names) : Path.StartsWithName (slashed m) := by
  obtain ⟨d, found, first, second⟩ := h.found
  obtain ⟨c, -, matched⟩ := exists_mem_run_of_mem_findFrom rfl found
  obtain ⟨module, list, offset, offset', captures, parts, listed⟩ := mem_run_pythonFrom matched
  rw [Cursor.capture?, captures] at first second
  obtain rfl : module = List.replicate dots '.' ++ dotted := Option.some.inj first
  obtain rfl : list = names := Option.some.inj second
  unfold modulesOf at named
  split at named
  · obtain ⟨split, some_name⟩ := List.mem_filter.mp named
    obtain ⟨piece, there, rfl⟩ := List.mem_map.mp split
    have some_char : Text.firstWord piece ≠ [] := by
      intro nothing
      simp [nothing] at some_name
    refine startsWithName_slashed some_char fun x head => ⟨?_, listed x ?_⟩
    · have there := List.mem_of_head? head
      simpa using List.mem_takeWhile_imp there
    · have inside : x ∈ piece := (List.dropWhile_sublist _).subset
        ((List.takeWhile_sublist _).subset (List.mem_of_head? head))
      exact (Text.of_mem_splitOn there).2 x inside
  · rename_i some_char
    obtain rfl := List.mem_singleton.mp named
    refine startsWithName_slashed some_char fun x head => ?_
    have part : isModuleChar x = true :=
      parts x (List.mem_append_right _ (List.mem_of_head? head))
    have other : x ≠ '.' := by
      rintro rfl
      exact h.first head
    have word : Text.isWordChar x = true := by simpa [isModuleChar, other] using part
    exact ⟨isBlank_of_isWordChar word, by simp [isNamesChar, word]⟩

/-- The directory of a file is the package of one dot. -/
theorem packageOf_succ (path : String) (dots : Nat) :
    packageOf path (dots + 1) = Nat.repeat Path.parent dots (Path.parent path) := by
  induction dots with
  | zero => rfl
  | succ dots ih =>
      change Path.parent (packageOf path (dots + 1)) = _
      rw [ih]
      rfl

/-- A relative import leads to the modules that it names, seen from the package of its dots. That is
where `..` for each dot but the first would lead from the directory of the file, if the directory is
absolute or names as many directories. Otherwise every dot that is left takes back a `..` of the
directory, where it should add one. -/
theorem relativeImport_climbs (fixed : Path.normalize path = path)
    (h : FindsRelative content dots dotted names) :
    let directory := Path.parent path
    let left := dots - 1 - Path.depth directory
    ofFromImport path (List.replicate dots '.' ++ dotted) names =
        (modulesOf dotted names).map (fun m => pythonModule (triedPath path dots m)) ∧
      ofFromImport path (List.replicate dots '.' ++ dotted) names ⊆ inPython path content ∧
      ∀ m ∈ modulesOf dotted names,
        (triedPath path dots m = meantPath path dots m ↔
          Path.isAbsolute path = true ∨ dots - 1 ≤ Path.depth directory) ∧
        (Path.isAbsolute path = false → Path.depth directory ≤ dots - 1 →
          triedPath path dots m =
              Path.normalize (Path.upwards (Path.ups directory - left) (slashed m)) ∧
            meantPath path dots m =
              Path.normalize (Path.upwards (Path.ups directory + left) (slashed m))) := by
  intro directory left
  have spelled := Path.isSpelled_of_fixed fixed
  have absolute : Path.isAbsolute path = Path.isRooted path.toList := by
    rw [← spelled.isAbsolute_ofList, String.ofList_toList]
  rw [← absolute] at spelled
  have directory_spelled := spelled.repeat_parent 1
  have visible := Path.visible_repeat_parent (Path.isTrimmed_of_fixed fixed).first 1
  have package : packageOf path dots = Nat.repeat Path.parent (dots - 1) directory := by
    rw [← packageOf_succ, Nat.sub_add_cancel h.some_dot]
  refine ⟨?_, h.subset_inPython, fun m named => ⟨?_, fun relative deep => ?_⟩⟩
  · rw [ofFromImport_relative h.some_dot h.first]
    exact List.map_congr_left fun m _ => moduleIn_eq _ m
  · rw [triedPath, package]
    exact directory_spelled.climb_iff visible (h.startsWithName named) (slashed_undotted m)
  · rw [relative] at directory_spelled
    rw [triedPath, package]
    exact directory_spelled.climb_of_depth_le visible (h.startsWithName named) deep

/-- Two dots in a file that is two packages deep lead to a neighbour of the inner one. -/
theorem relativeImport_climbs_to_neighbour :
    let path := "../lib/sub/m.py"
    let content := "from ..core.io import x, y\n".toList
    (Path.normalize path = path ∧ FindsRelative content 2 "core.io".toList "x, y".toList) ∧
      pythonModule "../lib/core/io" ∈ inPython path content ∧
      meantPath path 2 "core.io".toList = "../lib/core/io" := by
  intro path content
  have fixed : Path.normalize path = path := by decide
  have found : FindsRelative content 2 "core.io".toList "x, y".toList :=
    ⟨by decide, by decide, by decide⟩
  have named : "core.io".toList ∈ modulesOf "core.io".toList "x, y".toList := by decide
  have tried : triedPath path 2 "core.io".toList = "../lib/core/io" := by decide
  obtain ⟨leads, listed, climbs⟩ := relativeImport_climbs fixed found
  have agree := (climbs _ named).1.mpr (.inr (by decide))
  refine ⟨⟨fixed, found⟩, ?_, agree.symm.trans tried⟩
  rw [leads] at listed
  rw [← tried]
  exact listed (List.mem_map_of_mem named)

/-- Three dots in a file that is one package deep lead back to the start and not above it. -/
theorem relativeImport_stays_at_start :
    let tree := FileTree.ofList [("pkg/m.py", some "from ...core import x\n".toUTF8.toList),
      ("core.py", some [])]
    FindsRelative "from ...core import x\n".toList 3 "core".toList "x".toList ∧
      meantPath "pkg/m.py" 3 "core".toList = "../core" ∧
      triedPath "pkg/m.py" 3 "core".toList = "core" ∧
      Scanner.scan ⟨tree.files, "."⟩ ["pkg/m.py"] = .ok [⟨"pkg/m.py", ["core.py"]⟩] := by
  refine ⟨⟨by decide, by decide, by decide +kernel⟩, ?_⟩
  decide +kernel

end CommitSplit.Specifier
