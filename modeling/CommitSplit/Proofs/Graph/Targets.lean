import CommitSplit.Proofs.Graph.Construction

/-!
# The targets that a draft has for a path

Inserting a node never touches a target, and adding a dependency touches the targets of its source
only. So the targets of a path are those that were added for it, each at its first occurrence.
-/

namespace CommitSplit.Graph

/-- The targets that entries list for a path. -/
def targetsOf (entries : List Entry) (path : String) : List String :=
  ((entries.find? fun entry => entry.node.path = path).map Entry.targets).getD []

theorem dependencies_eq (g : Graph) (path : String) :
    g.dependencies path = targetsOf g.entries path := rfl

/-- The targets of a path stand at its place. -/
theorem targetsOf_eq (entries : List Entry) (path : String) :
    targetsOf entries path =
      ((position? entries path).bind fun i => (entries.map Entry.targets)[i]?).getD [] := by
  rw [targetsOf, List.find?_eq_bind_findIdx?_getElem?, ← position?]
  cases position? entries path with
  | none => rfl
  | some i => simp

/-- The targets as they are kept: normal and not empty. -/
def keptTargets (targets : List String) : List String :=
  (targets.map Path.normalize).filter fun target => target ≠ ""

@[simp] theorem keptTargets_nil : keptTargets [] = [] := rfl

theorem mem_keptTargets {targets : List String} {path : String} :
    path ∈ keptTargets targets ↔
      (∃ target ∈ targets, Path.normalize target = path) ∧ path ≠ "" := by
  simp [keptTargets]

namespace Draft

variable {d : Draft} {source target path : String} {i : Nat}

@[simp] theorem targetsOf_empty (path : String) : targetsOf empty.entries path = [] := rfl

@[simp] theorem targetsOf_insert (d : Draft) (node : Node) (path : String) :
    targetsOf (d.insert node).entries path = targetsOf d.entries path := by
  cases hp : position? d.entries node.path with
  | none =>
      rw [insert, hp, targetsOf, List.find?_append, targetsOf]
      cases d.entries.find? fun entry => entry.node.path = path with
      | some entry => rfl
      | none => by_cases same : node.path = path <;> simp [same]
  | some i =>
      have known := List.mem_of_getElem? (getElem?_of_position? hp)
      have paths : pathsOf (d.insert node).entries = pathsOf d.entries := by
        rw [pathsOf_insert, if_pos known]
      have targets : (d.insert node).entries.map Entry.targets = d.entries.map Entry.targets := by
        rw [map_targets_insert, if_pos known]
      rw [targetsOf_eq, targetsOf_eq, position?_eq, position?_eq, paths, targets]

/-- Adding a target at the place of a path adds it to the targets of that path. -/
theorem targetsOf_addTarget (found : position? d.entries source = some i) :
    targetsOf (d.addTarget i target).entries path =
      if path = source then FirstSeen.add (targetsOf d.entries source) target
      else targetsOf d.entries path := by
  have place (path : String) :
      position? (d.addTarget i target).entries path = position? d.entries path := by
    rw [position?_eq, position?_eq, pathsOf_addTarget]
  have inside : i < d.entries.length := by
    simpa [pathsOf] using (List.getElem?_eq_some_iff.mp (getElem?_of_position? found)).1
  rw [targetsOf_eq, place]
  split
  · rename_i same
    subst same
    simp [targetsOf_eq, found, addTarget, inside]
  · rename_i other
    rw [targetsOf_eq]
    cases hp : position? d.entries path with
    | none => rfl
    | some j =>
        have apart : i ≠ j := by
          rintro rfl
          exact other (Option.some_inj.mp
            ((getElem?_of_position? hp).symm.trans (getElem?_of_position? found)))
        simp [addTarget, apart]

/-- A dependency goes to the targets of its source, whether the source had a node or not. -/
theorem targetsOf_addDependency (fixed : Path.normalize source = source) (some_path : source ≠ "") :
    targetsOf (d.addDependency source target).entries path =
      if path = source then (keptTargets [target]).foldl FirstSeen.add (targetsOf d.entries source)
      else targetsOf d.entries path := by
  unfold addDependency
  rw [fixed]
  by_cases blank : Path.normalize target = ""
  · simp only [blank, keptTargets]
    split <;> simp_all
  · have kept : keptTargets [target] = [Path.normalize target] := by
      simp [keptTargets, blank]
    rw [kept, if_neg (not_or.mpr ⟨some_path, blank⟩)]
    cases found : position? d.entries source with
    | some i => exact targetsOf_addTarget found
    | none =>
        have new_path : (Node.new source).path = source := fixed
        have fresh : (Node.new source).path ∉ pathsOf d.entries := by
          rw [new_path]
          exact position?_eq_none_iff.mp found
        have last : position? (d.insert (Node.new source)).entries source =
            some ((d.insert (Node.new source)).size - 1) := by
          rw [position?_insert_of_fresh fresh, if_pos new_path.symm, size_insert_of_fresh fresh,
            Nat.add_sub_cancel]
        dsimp only
        rw [targetsOf_addTarget last, targetsOf_insert, targetsOf_insert]
        rfl

theorem targetsOf_addDependencies (fixed : Path.normalize source = source) (some_path : source ≠ "")
    (targets : List String) :
    targetsOf (d.addDependencies source targets).entries path =
      if path = source then (keptTargets targets).foldl FirstSeen.add (targetsOf d.entries source)
      else targetsOf d.entries path := by
  induction targets generalizing d with
  | nil => split <;> simp_all
  | cons target targets ih =>
      have kept : keptTargets (target :: targets) =
          keptTargets [target] ++ keptTargets targets := by
        rw [keptTargets, keptTargets, keptTargets, ← List.filter_append, ← List.map_append]
        rfl
      rw [addDependencies_cons, ih, targetsOf_addDependency fixed some_path,
        targetsOf_addDependency fixed some_path, if_pos rfl, kept, List.foldl_append]
      split <;> rfl

end Draft

end CommitSplit.Graph
