import CommitSplit.Proofs.Imports.Python.Sources
import Mathlib.Data.List.Flatten

/-!
# Imports that are kept

What is read of a file is part of what its imports name, in the same order. It is all of it just where
every line has one statement, the gaps between the words are blank, and behind every name but the last
of a list there is nothing but blanks and a comma.
-/

namespace CommitSplit.Python

open Specifier

variable {α β : Type} {accepts : Char → Bool} {items : List Item} {o : Origin} {s : Statement}
  {line : Line} {lines : List Line} {path : String}

/-! ## Parts of lists -/

/-- Both halves of a list are kept if all of it is. -/
theorem sublist_append_iff {xs ys us vs : List α} (front : us.Sublist xs) (back : vs.Sublist ys) :
    (xs ++ ys).Sublist (us ++ vs) ↔ xs.Sublist us ∧ ys.Sublist vs := by
  constructor
  · intro kept
    have lengths := kept.length_le
    have shorter := front.length_le
    have shorter' := back.length_le
    rw [List.length_append, List.length_append] at lengths
    rw [front.eq_of_length_le (by omega), back.eq_of_length_le (by omega)]
    exact ⟨.refl xs, .refl ys⟩
  · rintro ⟨kept, kept'⟩
    exact kept.append kept'

theorem flatMap_sublist_iff {xs : List α} {f g : α → List β}
    (parts : ∀ x ∈ xs, (f x).Sublist (g x)) :
    (xs.flatMap g).Sublist (xs.flatMap f) ↔ ∀ x ∈ xs, (g x).Sublist (f x) := by
  induction xs with
  | nil => simp
  | cons x xs ih =>
      obtain ⟨here, parts⟩ := List.forall_mem_cons.mp parts
      rw [List.flatMap_cons, List.flatMap_cons,
        sublist_append_iff here (List.Sublist.flatMap_right xs parts), ih parts,
        List.forall_mem_cons]

theorem map_sublist_iff {xs ys : List α} (f : α → β) (part : xs.Sublist ys) :
    (ys.map f).Sublist (xs.map f) ↔ xs = ys := by
  constructor
  · intro kept
    exact part.eq_of_length_le (by simpa using kept.length_le)
  · rintro rfl
    exact .refl _

/-! ## Lists of names -/

/-- Nothing but accepted characters stands between the names of a list. -/
def areApart (accepts : Char → Bool) (items : List Item) : Bool :=
  items.dropLast.all fun item => item.behind.all accepts

theorem reached_sublist (accepts : Char → Bool) (items : List Item) :
    (reached accepts items).Sublist (items.map Item.name) := by
  induction items with
  | nil => exact .refl []
  | cons item items ih =>
      rw [reached, List.map_cons]
      refine .cons_cons _ ?_
      split
      · exact ih
      · exact List.nil_sublist _

theorem reached_eq_iff : reached accepts items = items.map Item.name ↔
    areApart accepts items = true := by
  induction items with
  | nil => exact ⟨fun _ => rfl, fun _ => rfl⟩
  | cons item items ih =>
      cases items with
      | nil => exact ⟨fun _ => rfl, fun _ => by rw [reached, reached, ite_self]; rfl⟩
      | cons next items =>
          rw [reached, List.map_cons, List.cons.injEq, areApart, List.dropLast_cons_cons,
            List.all_cons, Bool.and_eq_true]
          by_cases all : item.behind.all accepts = true
          · rw [if_pos all, ih, areApart]
            exact ⟨fun h => ⟨all, h.2⟩, fun h => ⟨rfl, h.2⟩⟩
          · rw [if_neg all]
            exact ⟨fun h => absurd h.2 (by simp), fun h => absurd h.1 all⟩

/-! ## Statements -/

namespace Origin

/-- The names are modules of a package. -/
def isPackage (o : Origin) : Bool :=
  o.dots ≠ 0 && o.dotted = []

theorem specifiers_of_isPackage (package : o.isPackage = true) (path : String)
    (names : List (List Char)) :
    o.specifiers path names = names.map (moduleIn (packageOf path o.dots)) := by
  obtain ⟨some_dot, nothing⟩ : o.dots ≠ 0 ∧ o.dotted = [] := by simpa [isPackage] using package
  rw [specifiers, if_neg some_dot, if_pos nothing]

/-- What is imported from a module does not matter. -/
theorem exists_specifiers_eq (module : o.isPackage = false) (path : String) :
    ∃ specifier, ∀ names, o.specifiers path names = [specifier] := by
  unfold specifiers
  split
  · exact ⟨_, fun _ => rfl⟩
  · rename_i some_dot
    have some_char : o.dotted ≠ [] := by simpa [isPackage, some_dot] using module
    exact ⟨_, fun _ => if_neg some_char⟩

end Origin

namespace Statement

/-- The statement names no module: it takes in all names of a package. -/
def isSilent : Statement → Bool
  | modules _ _ => false
  | names o items => o.isPackage && items.map Item.name = [['*']]

/-- The statement is found and read to its end. -/
def isRead : Statement → Bool
  | modules gap items => gap.all Text.isBlank && areApart isListChar items
  | names o items => o.isSeen && (!o.isPackage || (o.isDirect && areApart isNamesChar items))

end Statement

theorem IsList.forall_mem {isWord : List Char → Prop} {enclosed : Bool}
    (h : IsList enclosed isWord items) : items ≠ [] ∧ ∀ item ∈ items, isWord item.name := by
  induction h with
  | last word _ => exact ⟨List.cons_ne_nil _ _, List.forall_mem_singleton.mpr word⟩
  | cons word _ _ ih => exact ⟨List.cons_ne_nil _ _, List.forall_mem_cons.mpr ⟨word, ih.2⟩⟩

theorem withoutStar_eq_self {names : List (List Char)} (named : ∀ name ∈ names, IsName name) :
    withoutStar names = names := by
  refine List.filter_eq_self.mpr fun name there => decide_eq_true ?_
  rintro rfl
  exact absurd ((named _ there).parts '*' List.mem_cons_self) (by decide)

/-- Either a star is imported or a list of names. -/
theorem Origin.Imports.star_or_names (h : o.Imports items) :
    items = [⟨['*'], []⟩] ∨ items ≠ [] ∧ ∀ name ∈ items.map Item.name, IsName name := by
  cases h with
  | all _ => exact .inl rfl
  | names _ _ listed | enclosed _ _ listed =>
      exact .inr ⟨listed.forall_mem.1, List.forall_mem_map.mpr listed.forall_mem.2⟩

namespace Statement

theorem modules_kept {gap : List Char} (h : IsList false IsModule items) (path : String) :
    ((modules gap items).seen path).Sublist ((modules gap items).named path) ∧
      (((modules gap items).named path).Sublist ((modules gap items).seen path) ↔
        (modules gap items).isRead = true) := by
  have named_eq : (modules gap items).named path = (items.map Item.name).map absoluteModule := by
    rw [named, List.map_map]
    rfl
  rw [named_eq, seen, isRead]
  by_cases blanks : gap.all Text.isBlank = true
  · have part := reached_sublist isListChar items
    rw [if_pos blanks, map_sublist_iff _ part, reached_eq_iff, blanks, Bool.true_and]
    exact ⟨part.map _, Iff.rfl⟩
  · rw [if_neg blanks, List.sublist_nil]
    simp [h.forall_mem.1, blanks]

theorem names_kept (h : o.Imports items) (path : String) :
    ((names o items).seen path).Sublist ((names o items).named path) ∧
      (((names o items).named path).Sublist ((names o items).seen path) ↔
        ((names o items).isSilent || (names o items).isRead) = true) := by
  rw [named, seen, isSilent, isRead]
  cases package : o.isPackage with
  | false =>
      obtain ⟨specifier, all⟩ := o.exists_specifiers_eq package path
      rw [all, all]
      cases o.isSeen <;> simp
  | true =>
      rw [o.specifiers_of_isPackage package, o.specifiers_of_isPackage package, Origin.heard]
      rcases h.star_or_names with rfl | ⟨some_item, all⟩
      · have nothing : withoutStar (reached isNamesChar [⟨['*'], []⟩]) = [] := by decide
        have nothing' : withoutStar ([⟨['*'], []⟩].map Item.name) = [] := by decide
        rw [nothing, nothing', ite_self, List.map_nil, ite_self]
        exact ⟨.refl [], iff_of_true (.refl []) (by simp)⟩
      · have part := reached_sublist isNamesChar items
        have no_star : items.map Item.name ≠ [['*']] := by
          intro star
          have name := all ['*'] (by rw [star]; exact List.mem_singleton_self _)
          exact absurd (name.parts '*' List.mem_cons_self) (by decide)
        rw [withoutStar_eq_self all,
          withoutStar_eq_self fun name there => all name (part.subset there)]
        cases o.isSeen with
        | false => simp [some_item, no_star]
        | true =>
            cases o.isDirect with
            | false => simp [some_item, no_star]
            | true =>
                simp only [if_true, map_sublist_iff _ part, reached_eq_iff]
                exact ⟨part.map _, by simp [no_star]⟩

/-- What is read of a statement is part of it, and all of it if it is read to its end or names
nothing. -/
theorem IsLegal.kept (h : s.IsLegal) (path : String) :
    (s.seen path).Sublist (s.named path) ∧
      ((s.named path).Sublist (s.seen path) ↔ (s.isSilent || s.isRead) = true) := by
  cases h with
  | modules _ _ listed => exact modules_kept listed path
  | names _ imports => exact names_kept imports path

theorem IsLegal.named_eq_nil_iff (h : s.IsLegal) (path : String) :
    s.named path = [] ↔ s.isSilent = true := by
  cases h with
  | modules _ _ listed => simp [named, isSilent, listed.forall_mem.1]
  | @names o items _ imports =>
      rw [named, isSilent]
      cases package : o.isPackage with
      | false =>
          obtain ⟨specifier, all⟩ := o.exists_specifiers_eq package path
          simp [all]
      | true =>
          rw [o.specifiers_of_isPackage package, List.map_eq_nil_iff, Bool.true_and,
            decide_eq_true_iff]
          rcases imports.star_or_names with rfl | ⟨some_item, all⟩
          · exact iff_of_true (by decide) rfl
          · rw [withoutStar_eq_self all]
            refine iff_of_false (by simp [some_item]) fun star => ?_
            have name := all ['*'] (by rw [star]; exact List.mem_singleton_self _)
            exact absurd (name.parts '*' List.mem_cons_self) (by decide)

end Statement

/-! ## Short files -/

/-- `from . import`, with a parenthesis or without one. -/
def siblings (opening : Option (List Char)) : Origin :=
  { behindFrom := [' '], dots := 1, dotted := [], behindModule := [' '], behindImport := [' '],
    opening := opening }

theorem isLegal_siblings (opening : Option (List Char)) : (siblings opening).IsLegal where
  dotted := .inl rfl
  some_module := nofun
  behindFrom := .space (by decide) .nil
  from_apart := nofun
  behindModule := fun _ there => List.mem_singleton.mp there ▸ by decide
  module_apart := fun some_char => absurd rfl some_char
  behindImport := .space (by decide) .nil

theorem isName_of_mem {c : Char} (letter : c ∈ ['a', 'b', 'c', 'd', 'x']) : IsName [c] := by
  have all : ∀ c ∈ ['a', 'b', 'c', 'd', 'x'], Text.isWordChar c = true ∧
      String.ofList [c] ∉ keywords :=
    List.all_iff_forall_prop.mp (by decide)
  obtain ⟨part, free⟩ := all c letter
  exact ⟨List.cons_ne_nil c [], List.forall_mem_singleton.mpr part, free⟩

theorem isModule_of_isName {name : List Char} (named : IsName name) : IsModule name := by
  have alone : IsModule (List.intercalate ['.'] [name]) :=
    .names (List.cons_ne_nil name []) (List.forall_mem_singleton.mpr named)
  rwa [List.intercalate_singleton] at alone

theorem isGap_space (enclosed : Bool) : IsGap enclosed [' '] :=
  .space (by decide) .nil

theorem isAlias_x (enclosed : Bool) : IsAlias enclosed " as x".toList := by
  have spelled : " as x".toList = [' '] ++ ("as".toList ++ ([' '] ++ ['x'])) := rfl
  rw [spelled]
  exact .named (isGap_space enclosed) (List.cons_ne_nil _ _) (isGap_space enclosed)
    (List.cons_ne_nil _ _) (isName_of_mem (by decide))

theorem isSeparator_comma {enclosed : Bool} {renamed gap : List Char}
    (named : IsAlias enclosed renamed) (spaced : IsGap enclosed gap) :
    IsSeparator enclosed (renamed ++ ',' :: gap) := by
  have comma := IsSeparator.comma named .nil spaced
  rwa [List.append_nil] at comma

theorem isGap_indent : IsGap true "\n    ".toList := by
  have spelled : "\n    ".toList = ['\n'] ++ List.replicate 4 ' ' := rfl
  rw [spelled]
  have space {gap : List Char} : IsGap true gap → IsGap true (' ' :: gap) := .space (by decide)
  exact .ending rfl .feed (space (space (space (space .nil))))

/-- Two lists with blanks around their commas. -/
def keptLines : List Line :=
  [.statements (.modules [' '] [⟨['a'], ", ".toList⟩, ⟨['b'], []⟩]) [] [],
    .statements (.names (siblings none) [⟨['c'], ", ".toList⟩, ⟨['d'], " as x".toList⟩]) [] [],
    .empty []]

/-- A list with another name in it, and one over several lines. -/
def lostLines : List Line :=
  [.statements (.modules [' '] [⟨['a'], " as x, ".toList⟩, ⟨['b'], []⟩]) [] [],
    .statements (.names (siblings (some "\n    ".toList))
      [⟨['c'], ",\n    ".toList⟩, ⟨['d'], ",\n".toList⟩]) [] [],
    .empty []]

theorem isLegal_keptLines : ∀ line ∈ keptLines, line.IsLegal := by
  have comma : IsSeparator false ", ".toList := isSeparator_comma .none (isGap_space false)
  have modules : IsList false IsModule [⟨['a'], ", ".toList⟩, ⟨['b'], []⟩] :=
    .cons (isModule_of_isName (isName_of_mem (by decide))) comma
      (.last (isModule_of_isName (isName_of_mem (by decide))) (.bare .none))
  have names : IsList false IsName [⟨['c'], ", ".toList⟩, ⟨['d'], " as x".toList⟩] :=
    .cons (isName_of_mem (by decide)) comma
      (.last (isName_of_mem (by decide)) (.bare (isAlias_x false)))
  refine List.forall_mem_cons.mpr ⟨?_, List.forall_mem_cons.mpr ⟨?_,
    List.forall_mem_singleton.mpr (.empty .nil)⟩⟩
  · exact .statements (.modules (isGap_space false) (List.cons_ne_nil _ _) modules) nofun .nil
  · exact .statements (.names (isLegal_siblings none) (.names rfl (List.cons_ne_nil _ _) names))
      nofun .nil

theorem isLegal_lostLines : ∀ line ∈ lostLines, line.IsLegal := by
  have renamed := isSeparator_comma (isAlias_x false) (isGap_space false)
  have modules : IsList false IsModule [⟨['a'], " as x, ".toList⟩, ⟨['b'], []⟩] :=
    .cons (isModule_of_isName (isName_of_mem (by decide))) renamed
      (.last (isModule_of_isName (isName_of_mem (by decide))) (.bare .none))
  have ending : IsSeparator true ",\n".toList :=
    isSeparator_comma .none (.ending rfl .feed .nil)
  have names : IsList true IsName [⟨['c'], ",\n    ".toList⟩, ⟨['d'], ",\n".toList⟩] :=
    .cons (isName_of_mem (by decide)) (isSeparator_comma .none isGap_indent)
      (.last (isName_of_mem (by decide)) (.comma ending))
  refine List.forall_mem_cons.mpr ⟨?_, List.forall_mem_cons.mpr ⟨?_,
    List.forall_mem_singleton.mpr (.empty .nil)⟩⟩
  · exact .statements (.modules (isGap_space false) (List.cons_ne_nil _ _) modules) nofun .nil
  · exact .statements (.names (isLegal_siblings _) (.enclosed rfl isGap_indent names)) nofun .nil

/-! ## Files -/

/-- The first statement of a line is read to its end and the others name nothing. -/
def Line.isKept : Line → Bool
  | empty _ => true
  | statements first others _ =>
    (first.isSilent || first.isRead) && others.all fun x => x.2.isSilent

theorem Line.IsLegal.kept (h : line.IsLegal) (path : String) :
    (line.seen path).Sublist (line.named path) ∧
      ((line.named path).Sublist (line.seen path) ↔ line.isKept = true) := by
  cases h with
  | empty _ => exact ⟨.refl [], iff_of_true (.refl []) rfl⟩
  | @statements first others rest legal others_legal _ =>
      obtain ⟨part, all⟩ := legal.kept path
      have whole := sublist_append_iff part
        (List.nil_sublist (others.flatMap fun x => x.2.named path))
      rw [List.append_nil] at whole
      rw [seen, named, isKept, Bool.and_eq_true, whole, all, List.sublist_nil,
        List.flatMap_eq_nil_iff, List.all_eq_true]
      refine ⟨part.trans (List.sublist_append_left _ _), and_congr_right fun _ => ?_⟩
      exact forall₂_congr fun x there => (others_legal x there).2.named_eq_nil_iff path

/-- The specifiers of a file of imports are what is read of its lines. They are modules that it
imports, in source order; and all of those are among them just where every line has one statement
that is read to its end. -/
theorem inPython_keeps_iff (path : String) (legal : ∀ line ∈ lines, line.IsLegal) :
    inPython path (textOf lines) = lines.flatMap (Line.seen path) ∧
      (inPython path (textOf lines)).Sublist (lines.flatMap (Line.named path)) ∧
      ((lines.flatMap (Line.named path)).Sublist (inPython path (textOf lines)) ↔
        ∀ line ∈ lines, line.isKept = true) := by
  have parts : ∀ line ∈ lines, (line.seen path).Sublist (line.named path) :=
    fun line there => ((legal line there).kept path).1
  rw [inPython_textOf path legal]
  refine ⟨rfl, List.Sublist.flatMap_right lines parts, ?_⟩
  rw [flatMap_sublist_iff parts]
  exact forall₂_congr fun line there => ((legal line there).kept path).2

/-- Names with blanks and commas between them are all kept, the last one under another name too. -/
theorem inPython_keeps_blank_lists :
    (∀ line ∈ keptLines, line.IsLegal) ∧
      textOf keptLines = "import a, b\nfrom . import c, d as x\n".toList ∧
      (keptLines.flatMap (Line.named "lib/m.py")).Sublist
        (inPython "lib/m.py" (textOf keptLines)) ∧
      keptLines.flatMap (Line.named "lib/m.py") =
        [pythonModule "a", pythonModule "b", pythonModule "lib/c", pythonModule "lib/d"] :=
  ⟨isLegal_keptLines, by decide,
    (inPython_keeps_iff "lib/m.py" isLegal_keptLines).2.2.mpr (by decide), by decide⟩

/-- What stands behind another name is lost, and so is what stands on another line. -/
theorem inPython_loses_names :
    let tree := FileTree.ofList [("m.py", some (String.ofList (textOf lostLines)).toUTF8.toList),
      ("a.py", some []), ("b.py", some []), ("c.py", some []), ("d.py", some [])]
    (∀ line ∈ lostLines, line.IsLegal) ∧
      textOf lostLines = "import a as x, b\nfrom . import (\n    c,\n    d,\n)\n".toList ∧
      lostLines.flatMap (Line.named "m.py") =
        [pythonModule "a", pythonModule "b", pythonModule "c", pythonModule "d"] ∧
      ¬(lostLines.flatMap (Line.named "m.py")).Sublist (inPython "m.py" (textOf lostLines)) ∧
      Scanner.scan ⟨tree.files, "."⟩ ["m.py"] = .ok [⟨"m.py", ["a.py", "c.py"]⟩] :=
  ⟨isLegal_lostLines, by decide, by decide, by decide +kernel, by decide +kernel⟩

end CommitSplit.Python
