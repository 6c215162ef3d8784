import CommitSplit.Proofs.Surface.Sighting
import CommitSplit.Surface.Rust.Reader

/-!
# The names of Rust, one after the other

Items are gone through in order, and so are those of an implementation. What an item imports is met
before what it exports, so a path that is used in public is met as an import first.
-/

namespace CommitSplit.Rust

/-- The public functions that a type implements for itself. -/
def inherentSightings (type : String) (body : List Piece) : List Sighting :=
  (declarations body).flatMap fun d =>
    match d.item with
    | .function name => if d.isPublic then [.exported (type ++ "::" ++ name)] else []
    | _ => []

/-- The names of one item. -/
def Declaration.sightings (d : Declaration) : List Sighting :=
  let shown (name : String) : List Sighting := if d.isPublic then [.exported name] else []
  match d.item with
  | .use path => .imported path :: shown path
  | .module name here => (if here then [] else [.imported name]) ++ shown name
  | .function name | .named name => shown name
  | .inherent type body => inherentSightings type body
  | .other => []

/-- The names of a source text as they are met. -/
def sightings (content : List Char) : List Sighting :=
  (declarations (pieces content)).flatMap Declaration.sightings

/-! ## What the reader collects -/

theorem inherentSightings_eq (type : String) (body : List Piece) :
    inherentSightings type body =
      ((publicFunctions body).map fun name => type ++ "::" ++ name).map .exported := by
  rw [inherentSightings, publicFunctions]
  induction declarations body with
  | nil => rfl
  | cons d ds ih =>
      rw [List.flatMap_cons, ih]
      obtain ⟨isPublic, item⟩ := d
      cases item <;> cases isPublic <;> rfl

namespace Declaration

theorem imports_sightings (d : Declaration) : Sighting.imports d.sightings = d.imports := by
  obtain ⟨isPublic, item⟩ := d
  cases item with
  | inherent type body =>
      exact (congrArg Sighting.imports (inherentSightings_eq type body)).trans
        (Sighting.imports_map_exported _)
  | module name here => cases isPublic <;> cases here <;> rfl
  | use | function | named | other => cases isPublic <;> rfl

theorem exports_sightings (d : Declaration) : Sighting.exports d.sightings = d.exports := by
  obtain ⟨isPublic, item⟩ := d
  cases item with
  | inherent type body =>
      exact (congrArg Sighting.exports (inherentSightings_eq type body)).trans
        (Sighting.exports_map_exported _)
  | module name here => cases isPublic <;> cases here <;> rfl
  | use | function | named | other => cases isPublic <;> rfl

end Declaration

theorem read_eq_foldl_note (content : List Char) :
    read content = (sightings content).foldl SurfaceNames.note .empty := by
  rw [SurfaceNames.foldl_note_eq, sightings, Sighting.imports_flatMap, Sighting.exports_flatMap]
  simp only [Declaration.imports_sightings, Declaration.exports_sightings]
  rfl

end CommitSplit.Rust
