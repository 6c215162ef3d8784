import CommitSplit.Imports.Scanner
import CommitSplit.Proofs.FirstSeen
import CommitSplit.Proofs.Imports.Headers
import CommitSplit.Proofs.Surface.Rust.Reader
import CommitSplit.Proofs.Surface.Script.Reader
import CommitSplit.Surface.Grammar

/-!
# Agreement of the scanner and the grammars

The surface of a file names modules that the scanner looks for in the same text. In a header with
a spaced layout, one statement or declaration to a line, the scanner finds every one of them. It
does not in every layout that a grammar allows.
-/

namespace CommitSplit.Grammar

/-- The modules that a source text names in its import statements, its exports from a module and its
declarations of modules in other files. -/
def staticModules : Grammar → List Char → List String
  | typeScript => Script.statedModules .typed
  | tsx => Script.statedModules .typedWithElements
  | javaScript => Script.statedModules .plain
  | rust => Rust.declaredModules
  | python => fun _ => []

/-- A header in a spaced layout, with the names of the modules that it mentions. -/
def Header : Grammar → List (List Char) → List Char → Prop
  | typeScript | tsx | javaScript => Script.Header
  | rust => Rust.Header
  | python => fun _ _ => False

/-- The language that the scanner takes a text for. -/
def language : Grammar → Language
  | typeScript | tsx => .typeScript
  | javaScript => .javaScript
  | rust => .rust
  | python => .python

/-- What the scanner makes of the name of a module. -/
def specifier (path : String) : Grammar → String → Specifier
  | typeScript, name | tsx, name | javaScript, name => Specifier.ofScriptName name.toList
  | rust, name => Specifier.ofRustName path name.toList
  | python, name => .bare name

variable {g : Grammar} {content : List Char} {name : String}

theorem mem_tidy {names : List String} (there : name ∈ names) (some_char : name ≠ "") :
    name ∈ SurfaceNames.tidy names := by
  rw [SurfaceNames.tidy, FirstSeen.mem_of, List.mem_filter]
  exact ⟨there, decide_eq_true some_char⟩

/-- These modules are imports of the surface. -/
theorem mem_imports_of_mem_staticModules (there : name ∈ g.staticModules content)
    (some_char : name ≠ "") : name ∈ (g.read content).imports := by
  have script (dialect : Script.Dialect) (there : name ∈ Script.statedModules dialect content) :
      name ∈ (Script.read dialect content).imports :=
    mem_tidy (List.mem_append_left _ there) some_char
  cases g with
  | typeScript | tsx | javaScript => exact script _ there
  | rust =>
      obtain ⟨d, declared, child⟩ := List.mem_filterMap.mp there
      refine mem_tidy (List.mem_flatMap.mpr ⟨d, declared, ?_⟩) some_char
      rw [Rust.Declaration.child?] at child
      rw [Rust.Declaration.imports]
      split at child
      · rename_i item
        simp_all
      · cases child
  | python => cases there

/-- The modules that a header names are read off it, in front of those that the rest of the text
names, and are all found by the scanner. -/
theorem staticModules_found {names : List (List Char)} {header : List Char}
    (h : g.Header names header) (path : String) (rest : List Char) :
    (∃ more, g.staticModules (header ++ rest) = names.map String.ofList ++ more ∧
      (rest = [] → more = [])) ∧
    ∀ name ∈ names.map String.ofList,
      name ∈ (g.read (header ++ rest)).imports ∧
        g.specifier path name ∈
          Specifier.ofContent g.language path (String.ofList (header ++ rest)) := by
  have read : ∃ more, g.staticModules (header ++ rest) = names.map String.ofList ++ more ∧
      (rest = [] → more = []) := by
    cases g with
    | typeScript | tsx | javaScript => exact Script.exists_statedModules_eq h rest
    | rust => exact Rust.exists_declaredModules_eq h rest
    | python => exact h.elim
  refine ⟨read, fun name there => ?_⟩
  obtain ⟨more, all, -⟩ := read
  obtain ⟨cs, listed, rfl⟩ := List.mem_map.mp there
  refine ⟨mem_imports_of_mem_staticModules (all ▸ List.mem_append_left more there) ?_, ?_⟩
  · have some_char : cs ≠ [] := by
      cases g with
      | typeScript | tsx | javaScript => exact Script.Header.ne_nil h cs listed
      | rust => exact Rust.Header.ne_nil h cs listed
      | python => exact h.elim
    simpa using some_char
  · cases g with
    | typeScript | tsx | javaScript =>
        simpa [specifier, Specifier.ofContent, language] using
          Specifier.ofScriptName_mem_inScript h rest cs listed
    | rust =>
        simpa [specifier, Specifier.ofContent, language] using
          Specifier.ofRustName_mem_inRust h path rest cs listed
    | python => exact h.elim

theorem header_of_statements : typeScript.Header ["./b".toList, "../c".toList]
    "// Parts\nimport \x7b a as b \x7d from './b';\nexport type * from \x22../c\x22\n".toList := by
  have names : Script.Clause 0 [.opening, .word "a", .word "as", .word "b", .closing] := by
    simp [Script.Clause]
  have second : Script.Header ["../c".toList] "export type * from \x22../c\x22\n".toList :=
    @Script.Header.statement [] [] ['\n'] [] "../c".toList '\x22'
      [(.word "export", [' ']), (.word "type", [' ']), (.star, [' ']), (.word "from", [' '])]
      (by decide) (.inr (.everything true)) (by decide) .feed .nil
  have first := @Script.Header.statement _ [] _ _ "./b".toList '\x27'
    [(.word "import", [' ']), (.opening, [' ']), (.word "a", [' ']), (.word "as", [' ']),
      (.word "b", [' ']), (.closing, [' ']), (.word "from", [' '])]
    (by decide) (.inl (.clause names (List.cons_ne_nil _ _) (by decide) (by decide))) (by decide)
    (.semicolon .feed) second
  exact @Script.Header.comment _ [] _ _ (by decide)
    (@Source.IsComment.line " Parts".toList ['\n'] (List.all_iff_forall_prop.mp rfl) .feed) first

theorem header_of_declaration :
    Grammar.rust.Header ["tests".toList] "pub(crate) mod tests;\n".toList :=
  @Rust.Header.declaration [] [] "pub(crate) ".toList [' '] "tests".toList [] ['\n'] [] (by decide)
    (@Rust.Visibility.within _ "crate".toList [' '] (by decide) (by decide) (by decide)) (by decide)
    (by decide) (by decide) (by decide) .feed .nil

/-- Both kinds of header, with code behind them. -/
theorem staticModules_found_in_text :
    (let text := "// Parts\nimport \x7b a as b \x7d from './b';\nexport type * from \x22../c\x22\n"
     typeScript.Header ["./b".toList, "../c".toList] text.toList ∧
       ∀ name ∈ ["./b", "../c"],
         typeScript.specifier "a.ts" name ∈ Specifier.ofContent typeScript.language "a.ts"
           (String.ofList (text.toList ++ "run();".toList))) ∧
    (let text := "pub(crate) mod tests;\n"
     Grammar.rust.Header ["tests".toList] text.toList ∧
       Grammar.rust.specifier "src/lib.rs" "tests" ∈ Specifier.ofContent Grammar.rust.language
         "src/lib.rs" (String.ofList (text.toList ++ "fn run() \x7b\x7d".toList))) := by
  refine ⟨⟨header_of_statements, fun name there => ?_⟩, header_of_declaration, ?_⟩
  · exact ((staticModules_found header_of_statements "a.ts" _).2 name there).2
  · exact ((staticModules_found header_of_declaration "src/lib.rs" _).2 _ List.mem_cons_self).2

/-- What a grammar allows is more: a statement without blanks, and a declaration behind an
attribute, are imports that the scanner overlooks. -/
theorem static_module_overlooked :
    let script := "import\x7bb\x7dfrom'./b';"
    let rust := "#[cfg(test)] mod tests;"
    ("./b" ∈ typeScript.staticModules script.toList ∧
      "./b" ∈ (typeScript.read script.toList).imports ∧
      Specifier.ofContent typeScript.language "a.ts" script = []) ∧
    ("tests" ∈ Grammar.rust.staticModules rust.toList ∧
      "tests" ∈ (Grammar.rust.read rust.toList).imports ∧
      Specifier.ofContent Grammar.rust.language "src/lib.rs" rust = []) := by
  decide +kernel

end CommitSplit.Grammar
