import CommitSplit.Proofs.Surface.Names

/-!
# Noting names one by one

A reader meets names while it goes through a source text, some of them more than once. Noting a name
adds it to the imports or to the exports unless it is empty or is there already. So whatever was
met, the notes have each name once, in the order of the first meetings, and never an empty one.

That is kept by noting one more name, and so by noting any names in turn. Tidying all of them in the
end comes to the same.
-/

namespace CommitSplit

/-- A name as a reader meets it. -/
inductive Sighting
  | imported (name : String)
  | exported (name : String)
  deriving DecidableEq

namespace Sighting

def imported? : Sighting → Option String
  | imported name => some name
  | exported _ => none

def exported? : Sighting → Option String
  | imported _ => none
  | exported name => some name

/-- The names among sightings that are imported, in the order in which they were met. -/
def imports (met : List Sighting) : List String :=
  met.filterMap imported?

/-- The names among sightings that are exported, in the order in which they were met. -/
def exports (met : List Sighting) : List String :=
  met.filterMap exported?

section

variable (name : String) (met more : List Sighting)

@[simp] theorem imports_nil : imports [] = [] := rfl

@[simp] theorem exports_nil : exports [] = [] := rfl

@[simp] theorem imports_imported : imports (imported name :: met) = name :: imports met := rfl

@[simp] theorem exports_imported : exports (imported name :: met) = exports met := rfl

@[simp] theorem imports_exported : imports (exported name :: met) = imports met := rfl

@[simp] theorem exports_exported : exports (exported name :: met) = name :: exports met := rfl

@[simp] theorem imports_append : imports (met ++ more) = imports met ++ imports more :=
  List.filterMap_append

@[simp] theorem exports_append : exports (met ++ more) = exports met ++ exports more :=
  List.filterMap_append

@[simp] theorem imports_map_imported (names : List String) :
    imports (names.map imported) = names := by
  simp [imports, Function.comp_def, imported?]

@[simp] theorem exports_map_imported (names : List String) :
    exports (names.map imported) = [] := by
  simp [exports, Function.comp_def, exported?]

@[simp] theorem imports_map_exported (names : List String) :
    imports (names.map exported) = [] := by
  simp [imports, Function.comp_def, imported?]

@[simp] theorem exports_map_exported (names : List String) :
    exports (names.map exported) = names := by
  simp [exports, Function.comp_def, exported?]

end

variable {α : Type}

theorem imports_flatMap (f : α → List Sighting) (items : List α) :
    imports (items.flatMap f) = items.flatMap fun item => imports (f item) :=
  List.filterMap_flatMap

theorem exports_flatMap (f : α → List Sighting) (items : List α) :
    exports (items.flatMap f) = items.flatMap fun item => exports (f item) :=
  List.filterMap_flatMap

end Sighting

/-! ## One list of names -/

/-- The list with one more name, unless that is empty or there already. -/
def noteName (names : List String) (name : String) : List String :=
  if name = "" ∨ name ∈ names then names else names ++ [name]

/-- A list has the names that were met, but for the empty one, each once and in the order in which
they were met first. -/
structure ListsAsMet (met names : List String) : Prop where
  nodup : names.Nodup
  mem_iff : ∀ name, name ∈ names ↔ name ∈ met ∧ name ≠ ""
  ordered : names.Pairwise fun a b => met.idxOf a < met.idxOf b

namespace ListsAsMet

variable {met names : List String}

theorem nil : ListsAsMet [] [] :=
  ⟨List.nodup_nil, by simp, .nil⟩

/-- What was met before keeps its place when one more name is met. -/
theorem ordered_append (h : ListsAsMet met names) (name : String) :
    names.Pairwise fun a b => (met ++ [name]).idxOf a < (met ++ [name]).idxOf b := by
  apply h.ordered.imp_of_mem
  intro a b ha hb before
  rw [List.idxOf_append_of_mem ((h.mem_iff a).mp ha).1,
    List.idxOf_append_of_mem ((h.mem_iff b).mp hb).1]
  exact before

theorem note (h : ListsAsMet met names) (name : String) :
    ListsAsMet (met ++ [name]) (noteName names name) := by
  rw [noteName]
  split
  · rename_i known
    refine ⟨h.nodup, fun other => ?_, h.ordered_append name⟩
    rw [List.mem_append, List.mem_singleton, h.mem_iff]
    rcases known with rfl | known
    · tauto
    · have := (h.mem_iff name).mp known
      constructor
      · tauto
      · rintro ⟨there | rfl, some_char⟩
        · exact ⟨there, some_char⟩
        · exact this
  · rename_i unknown
    obtain ⟨some_char, fresh⟩ := not_or.mp unknown
    have unmet : name ∉ met := fun there => fresh ((h.mem_iff name).mpr ⟨there, some_char⟩)
    refine ⟨by simpa using h.nodup.concat fresh, fun other => ?_, ?_⟩
    · simp only [List.mem_append, List.mem_singleton, h.mem_iff]
      constructor
      · rintro (⟨there, some_char'⟩ | rfl)
        · exact ⟨.inl there, some_char'⟩
        · exact ⟨.inr rfl, some_char⟩
      · rintro ⟨there | rfl, some_char'⟩
        · exact .inl ⟨there, some_char'⟩
        · exact .inr rfl
    · rw [List.pairwise_append]
      refine ⟨h.ordered_append name, List.pairwise_singleton _ _, fun a ha b hb => ?_⟩
      obtain rfl := List.mem_singleton.mp hb
      have there := ((h.mem_iff a).mp ha).1
      rw [List.idxOf_append_of_mem there, List.idxOf_append_of_notMem unmet]
      have := List.idxOf_lt_length_of_mem there
      omega

end ListsAsMet

theorem SurfaceNames.tidy_append_singleton (names : List String) (name : String) :
    tidy (names ++ [name]) = noteName (tidy names) name := by
  rw [tidy, List.filter_append, noteName]
  by_cases empty : name = ""
  · simp [empty, tidy]
  · have kept : [name].filter (· ≠ "") = [name] := by simp [empty]
    rw [kept, FirstSeen.of_append_singleton, FirstSeen.add, ← tidy]
    simp [empty]

/-! ## Imports and exports -/

namespace SurfaceNames

variable {s : SurfaceNames} {met : List Sighting}

/-- Notes a name where it belongs. -/
def note (s : SurfaceNames) : Sighting → SurfaceNames
  | .imported name => { s with imports := noteName s.imports name }
  | .exported name => { s with exports := noteName s.exports name }

@[simp] theorem note_imported (s : SurfaceNames) (name : String) :
    s.note (.imported name) = ⟨noteName s.imports name, s.exports⟩ := rfl

@[simp] theorem note_exported (s : SurfaceNames) (name : String) :
    s.note (.exported name) = ⟨s.imports, noteName s.exports name⟩ := rfl

/-- Imports and exports are listed as they were met. -/
structure Records (s : SurfaceNames) (met : List Sighting) : Prop where
  imports : ListsAsMet (Sighting.imports met) s.imports
  exports : ListsAsMet (Sighting.exports met) s.exports

namespace Records

theorem empty : Records empty [] :=
  ⟨.nil, .nil⟩

/-- Noting a name leaves the other list alone. -/
theorem note (h : s.Records met) (sighting : Sighting) :
    (s.note sighting).Records (met ++ [sighting]) := by
  cases sighting with
  | imported name =>
      exact ⟨by simpa using h.imports.note name, by simpa using h.exports⟩
  | exported name =>
      exact ⟨by simpa using h.imports, by simpa using h.exports.note name⟩

/-- So it holds of the notes that are taken of any names in turn. -/
theorem foldl (met : List Sighting) : (met.foldl SurfaceNames.note .empty).Records met := by
  induction met using List.reverseRecOn with
  | nil => exact empty
  | append_singleton met sighting ih =>
      rw [List.foldl_append]
      exact ih.note sighting

end Records

/-- Noting names in turn is tidying all of them. -/
theorem foldl_note_eq (met : List Sighting) :
    met.foldl note empty = of (Sighting.imports met) (Sighting.exports met) := by
  induction met using List.reverseRecOn with
  | nil => rfl
  | append_singleton met sighting ih =>
      rw [List.foldl_append, ih]
      cases sighting with
      | imported name => simp [of, tidy_append_singleton]
      | exported name => simp [of, tidy_append_singleton]

end SurfaceNames

end CommitSplit
