import CommitSplit.Files.Tree
import CommitSplit.Proofs.FirstSeen
import CommitSplit.Proofs.Imports.Requests
import CommitSplit.Proofs.Path.Joining

/-!
# Imports of scripts

A name that begins with dots leads a script out of its file to a path. What is meant by that path is
the path itself, a script of that name, or the index of the directory there, whichever is known
first. Of the directory that all paths start from no index is found, since the path of that
directory is empty and its entries are sought at the root of the file system.
-/

namespace CommitSplit

/-! ## Names that begin with dots -/

namespace Specifier

/-- A name of a module that leads from the directory of the file. -/
inductive IsDotted : List Char → Prop
  | here : IsDotted Path.here
  | above : IsDotted Path.above
  | inside (rest : List Char) : IsDotted (Path.here ++ '/' :: rest)
  | outside (rest : List Char) : IsDotted (Path.above ++ '/' :: rest)

theorem ofScriptName_of_isDotted {written : String} (dotted : IsDotted written.toList) :
    ofScriptName written.toList = relative written := by
  have spelled : String.ofList written.toList = written := String.ofList_toList
  generalize written.toList = name at dotted spelled ⊢
  subst spelled
  cases dotted <;> rfl

theorem IsDotted.head?_eq {name : List Char} (dotted : IsDotted name) : name.head? = some '.' := by
  cases dotted <;> rfl

end Specifier

namespace Path

variable {path : List Char}

/-- A path that ends with `..` has no name. -/
theorem nameChars?_of_getLast?_eq_above (climbs : (writtenSegments path).getLast? = some above) :
    nameChars? path = none := by
  have ends {body : List Char}
      (climbs : (if body = [] then [] else Text.splitOn '/' body).getLast? = some above) :
      ∃ front, Text.splitOn '/' body = front ++ [above] := by
    by_cases nothing : body = []
    · simp [nothing] at climbs
    · rw [if_neg nothing] at climbs
      exact List.getLast?_eq_some_iff.mp climbs
  obtain ⟨front, split⟩ : ∃ front, Text.splitOn '/' path = front ++ [above] := by
    by_cases rooted : path.head? = some '/'
    · obtain ⟨rest, rfl⟩ := List.head?_eq_some_iff.mp rooted
      obtain ⟨front, split⟩ := @ends rest climbs
      refine ⟨[] :: front, ?_⟩
      rw [Text.splitOn_cons, if_pos rfl, split, List.cons_append]
    · rw [writtenSegments, if_neg rooted] at climbs
      exact ends climbs
  have last : ((Text.splitOn '/' path).filter fun s => s ≠ [] && s ≠ ['.']).getLast? =
      some above := by
    rw [split, List.filter_append]
    exact List.getLast?_concat
  rw [nameChars?, last]
  rfl

end Path

/-- A file in a language that is told by an extension does not end with `..`. -/
theorem Language.getLast?_ne_above {file : String} {language : Language}
    (known : Language.ofPath file = language) (some_language : language ≠ .other) :
    (Path.writtenSegments file.toList).getLast? ≠ some Path.above := by
  intro climbs
  have unnamed := Path.nameChars?_of_getLast?_eq_above climbs
  have other : Language.ofPath file = .other := by
    simp [Language.ofPath, Path.extension?, Path.name?, unnamed]
  exact some_language (known.symm.trans other)

namespace Scanner

open Specifier (scriptExtensions)

variable {s : Scanner} {requested : List String} {file written path text : String}
  {targets : List String}

/-! ## What a path means -/

/-- What an import of a path may mean, the preferred first: the path itself, a script of that name,
the index of the directory there. -/
def meanings (base : String) : List String :=
  base :: scriptExtensions.map (fun ext => base ++ "." ++ ext) ++
    scriptExtensions.map (fun ext => Path.entryOf base ("index." ++ ext))

theorem resolve_relative_eq (some_base : Path.resolve file written ≠ "") :
    s.resolve requested file (.relative written) =
      ((meanings (Path.resolve file written)).find? (s.isKnown requested)).getD
        (Path.resolve file written) := by
  have index (ext : String) :
      Path.entryOf (Path.resolve file written) ("index." ++ ext) =
        Path.resolve file written ++ "/index." ++ ext := by
    rw [Path.entryOf, if_neg some_base, String.append_assoc, String.append_assoc]
    rfl
  simp only [resolve, Specifier.candidates, meanings, index]

theorem ne_empty_of_mem_meanings {base : String} (some_base : base ≠ "")
    (there : path ∈ meanings base) : path ≠ "" := by
  simp only [meanings, List.cons_append, List.mem_cons, List.mem_append, List.mem_map] at there
  rcases there with rfl | ⟨ext, -, rfl⟩ | ⟨ext, -, rfl⟩
  · exact some_base
  · simp
  · simp [Path.entryOf, some_base]

/-- An import that leads away from the start leads somewhere. -/
theorem resolve_relative_ne_empty (some_base : Path.resolve file written ≠ "") :
    s.resolve requested file (.relative written) ≠ "" := by
  rw [resolve_relative_eq some_base]
  cases found : (meanings (Path.resolve file written)).find? (s.isKnown requested) with
  | none => exact some_base
  | some path => exact ne_empty_of_mem_meanings some_base (List.mem_of_find?_eq_some found)

/-! ## The start of all paths -/

/-- What is tried for the directory that paths start from. -/
def startMeanings : List String :=
  "" :: scriptExtensions.map (fun ext => "." ++ ext) ++
    scriptExtensions.map (fun ext => "/index." ++ ext)

theorem resolve_relative_of_start (start : Path.resolve file written = "") :
    s.resolve requested file (.relative written) =
      (startMeanings.find? (s.isKnown requested)).getD "" := by
  simp only [resolve, Specifier.candidates, startMeanings, start, String.empty_append]

/-! ## Dependencies -/

/-- The dependencies of a file are what its specifiers lead to, but for those that lead nowhere. -/
theorem mem_dependencies_iff (reads : reads (Language.ofPath file) = true)
    (read : s.content file = .ok text) (answered : s.dependencies requested file = .ok targets) :
    path ∈ targets ↔ path ≠ "" ∧
      ∃ specifier ∈ Specifier.ofContent (Language.ofPath file) file text,
        s.resolve requested file specifier = path := by
  rw [dependencies, if_pos reads, read] at answered
  obtain rfl := Except.ok.inj answered
  rw [FirstSeen.mem_of, List.mem_filter, List.mem_map, decide_eq_true_iff, and_comm]

theorem start_meanings_ne_index {ext : String} (there : path ∈ startMeanings) :
    path ≠ "index." ++ ext := by
  have first : ∀ path ∈ startMeanings, path.toList.head? ≠ some 'i' := by decide
  rintro rfl
  exact first _ there (by simp)

/-- An import that begins with dots leads a script out of its file and on. What it leads to there is
the first meaning of the path that is asked for or is a file, or else the path itself, and it is a
dependency of the script. Where it leads to the start of all paths no index is found, and there is
no dependency unless something else is taken for it. -/
theorem resolve_script_import (s : Scanner) (requested : List String)
    (script : Language.ofPath file ∈ [Language.typeScript, Language.javaScript])
    (fixed : Path.normalize file = file) (dotted : Specifier.IsDotted written.toList) :
    let base := Path.normalize (file ++ "/../" ++ written)
    let target := s.resolve requested file (Specifier.ofScriptName written.toList)
    (base ≠ "" → target = ((meanings base).find? (s.isKnown requested)).getD base ∧ target ≠ "") ∧
    (base = "" → target = (startMeanings.find? (s.isKnown requested)).getD "" ∧
      ∀ ext, target ≠ "index." ++ ext) ∧
    ∀ text targets, s.content file = .ok text →
      Specifier.ofScriptName written.toList ∈ Specifier.inScript text.toList →
      s.dependencies requested file = .ok targets → (target ∈ targets ↔ target ≠ "") := by
  intro base target
  have some_file : file ≠ "" := by
    rintro rfl
    exact absurd script (by decide)
  have stays : (Path.writtenSegments file.toList).getLast? ≠ some Path.above := by
    refine Language.getLast?_ne_above rfl fun other => ?_
    rw [other] at script
    exact absurd script (by decide)
  have first : ∀ c ∈ written.toList.head?, Text.isBlank c = false ∧ c ≠ '/' ∧ c ≠ '\\' := by
    rw [dotted.head?_eq]
    simp only [Option.mem_def, Option.some.injEq, forall_eq']
    decide
  have joined : Path.resolve file written = base :=
    Path.resolve_eq_normalize some_file fixed stays (fun c there => (first c there).1)
      fun c there => (first c there).2
  have target_eq : target = s.resolve requested file (.relative written) :=
    congrArg (s.resolve requested file) (Specifier.ofScriptName_of_isDotted dotted)
  refine ⟨fun some_base => ?_, fun start => ?_, fun text targets read there answered => ?_⟩
  · rw [← joined] at some_base ⊢
    rw [target_eq]
    exact ⟨resolve_relative_eq some_base, resolve_relative_ne_empty some_base⟩
  · rw [← joined] at start
    have resolved := target_eq.trans (resolve_relative_of_start start)
    refine ⟨resolved, fun ext => ?_⟩
    rw [resolved]
    cases found : startMeanings.find? (s.isKnown requested) with
    | none => simp
    | some path => exact start_meanings_ne_index (List.mem_of_find?_eq_some found)
  · have reads : reads (Language.ofPath file) = true ∧
        Specifier.ofContent (Language.ofPath file) file text = Specifier.inScript text.toList := by
      simp only [List.mem_cons, List.not_mem_nil, or_false] at script
      rcases script with language | language <;> rw [language] <;> exact ⟨rfl, rfl⟩
    rw [mem_dependencies_iff reads.1 read answered, reads.2]
    exact and_iff_left ⟨_, there, rfl⟩

/-- A directory with two index files, of which one is only asked for, from a file two levels below
its neighbour. -/
theorem resolve_script_import_of_index :
    let tree := FileTree.ofList [("src/app/main.ts", some "import '../lib/.';\n".toUTF8.toList),
      ("src/lib/index.js", some [])]
    let s : Scanner := ⟨tree.files, "."⟩
    let requested := ["src/app/main.ts", "src/lib/index.tsx"]
    (Language.ofPath "src/app/main.ts" ∈ [Language.typeScript, Language.javaScript] ∧
      Path.normalize "src/app/main.ts" = "src/app/main.ts" ∧
      Specifier.IsDotted "../lib/.".toList) ∧
    s.resolve requested "src/app/main.ts" (Specifier.ofScriptName "../lib/.".toList) =
      "src/lib/index.tsx" ∧
    s.dependencies requested "src/app/main.ts" = .ok ["src/lib/index.tsx"] := by
  intro tree s requested
  have script : Language.ofPath "src/app/main.ts" ∈ [Language.typeScript, Language.javaScript] := by
    decide
  have fixed : Path.normalize "src/app/main.ts" = "src/app/main.ts" := by decide
  have dotted : Specifier.IsDotted "../lib/.".toList := .outside "lib/.".toList
  have resolved := (resolve_script_import s requested script fixed dotted).1 (by decide)
  refine ⟨⟨script, fixed, dotted⟩, ?_, by decide +kernel⟩
  rw [resolved.1]
  decide

/-- The index of the directory that paths start from is not found. -/
theorem start_index_overlooked :
    let tree := FileTree.ofList [("a.ts", some "import '.';\n".toUTF8.toList),
      ("index.ts", some [])]
    let s : Scanner := ⟨tree.files, "."⟩
    Path.normalize ("a.ts" ++ "/../" ++ ".") = "" ∧
      (meanings "").find? (s.isKnown ["a.ts", "index.ts"]) = some "index.ts" ∧
      s.resolve ["a.ts", "index.ts"] "a.ts" (Specifier.ofScriptName ".".toList) = "" ∧
      s.scan ["a.ts", "index.ts"] = .ok [⟨"a.ts", []⟩, ⟨"index.ts", []⟩] := by
  decide +kernel

end Scanner

end CommitSplit
