import CommitSplit.Graph.Basic
import CommitSplit.Proofs.FirstSeen
import Mathlib.Data.List.Nodup

/-!
# Graphs that a draft leads to

A draft grows by operations, and a graph that was built can be opened again. Whatever the operations
were, the nodes of the draft have distinct paths, so a path and its place name the same entry, and
the graph that is built lists the cycles of its own entries.
-/

namespace CommitSplit.Graph

/-- Changing one item and looking at all of them can be done in either order. -/
theorem map_modify {α β : Type} {f : α → β} {g : α → α} {h : β → β}
    {items : List α} {i : Nat} (commutes : ∀ a, f (g a) = h (f a)) :
    (items.modify i g).map f = (items.map f).modify i h := by
  apply List.ext_getElem?
  intro j
  rcases eq_or_ne i j with rfl | other
  · simp [Function.comp_def, commutes]
  · simp [other]

/-- What a change does not touch stays the same for all items. -/
theorem map_modify_of_same {α β : Type} {f : α → β} {g : α → α} {items : List α} {i : Nat}
    (same : ∀ a, f (g a) = f a) : (items.modify i g).map f = items.map f :=
  (map_modify (h := id) same).trans (List.modify_id i _)

/-- The paths of entries in their order. -/
def pathsOf (entries : List Entry) : List String :=
  entries.map fun entry => entry.node.path

theorem paths_eq (g : Graph) : g.paths = pathsOf g.entries := rfl

/-- The place of a path among the entries is its place among their paths. -/
theorem position?_eq (entries : List Entry) (path : String) :
    position? entries path = (pathsOf entries).idxOf? path := by
  rw [position?, pathsOf, List.idxOf?, List.findIdx?_map]
  congr 1

theorem position?_eq_none_iff {entries : List Entry} {path : String} :
    position? entries path = none ↔ path ∉ pathsOf entries := by
  rw [position?_eq, List.idxOf?_eq_none_iff]

theorem getElem?_of_position? {entries : List Entry} {path : String} {i : Nat}
    (h : position? entries path = some i) : (pathsOf entries)[i]? = some path :=
  FirstSeen.getElem?_of_idxOf? (position?_eq entries path ▸ h)

/-- Distinct paths are found at their places. -/
theorem position?_eq_some_iff {entries : List Entry} (distinct : (pathsOf entries).Nodup)
    {path : String} {i : Nat} :
    position? entries path = some i ↔ (pathsOf entries)[i]? = some path := by
  rw [position?_eq, FirstSeen.idxOf?_eq_some_iff distinct]

@[simp] theorem contains_iff (g : Graph) (path : String) :
    g.contains path = true ↔ path ∈ g.paths := by
  rw [contains, Option.isSome_iff_ne_none, ne_eq, position?_eq_none_iff, not_not, paths_eq]

namespace Draft

/-- What can be done to a draft. Building the graph and opening it again counts too. -/
inductive Operation
  | insert (node : Node)
  | addDependency (source target : String)
  | addDependencies (source : String) (targets : List String)
  | reopen

/-- Carries out an operation. -/
def apply (d : Draft) : Operation → Draft
  | .insert node => d.insert node
  | .addDependency source target => d.addDependency source target
  | .addDependencies source targets => d.addDependencies source targets
  | .reopen => d.build.toDraft

/-- The draft that operations make of the empty one. -/
def ofOperations (operations : List Operation) : Draft :=
  operations.foldl apply empty

@[simp] theorem addDependencies_nil (d : Draft) (source : String) :
    d.addDependencies source [] = d := rfl

@[simp] theorem addDependencies_cons (d : Draft) (source target : String) (targets : List String) :
    d.addDependencies source (target :: targets) =
      (d.addDependency source target).addDependencies source targets := by
  rw [addDependencies, List.foldl_cons, ← addDependencies]

/-- Every operation comes down to inserting nodes and adding targets that are not empty. What both
keep is kept by the operation. Beside the node that it names an operation inserts new ones only. -/
theorem apply_induction_of {Q : Node → Prop} {P : Draft → Prop} (new : ∀ path, Q (Node.new path))
    (insert : ∀ d node, Q node → P d → P (d.insert node))
    (addTarget : ∀ d i target, target ≠ "" → P d → P (d.addTarget i target)) {d : Draft}
    (start : P d) (operation : Operation) (named : ∀ node, operation = .insert node → Q node) :
    P (d.apply operation) := by
  have addDependency : ∀ d source target, P d → P (d.addDependency source target) := by
    intro d source target h
    unfold Draft.addDependency
    dsimp only
    split
    · exact h
    · rename_i some_path
      have some_target := (not_or.mp some_path).2
      split
      · exact addTarget d _ _ some_target h
      · exact addTarget _ _ _ some_target (insert d _ (new _) h)
  have addDependencies : ∀ targets d source, P d → P (d.addDependencies source targets) := by
    intro targets
    induction targets with
    | nil => exact fun _ _ h => h
    | cons target targets ih =>
        intro d source h
        rw [addDependencies_cons]
        exact ih _ _ (addDependency d source target h)
  cases operation with
  | insert node => exact insert d node (named node rfl) start
  | addDependency source target => exact addDependency d source target start
  | addDependencies source targets => exact addDependencies targets d source start
  | reopen => exact start

theorem apply_induction {P : Draft → Prop} (insert : ∀ d node, P d → P (d.insert node))
    (addTarget : ∀ d i target, target ≠ "" → P d → P (d.addTarget i target)) {d : Draft}
    (start : P d) (operation : Operation) : P (d.apply operation) :=
  apply_induction_of (Q := fun _ => True) (fun _ => trivial) (fun d node _ => insert d node)
    addTarget start operation fun _ _ => trivial

/-- So it holds of every draft that operations lead to. -/
theorem ofOperations_induction_of {Q : Node → Prop} {P : Draft → Prop} (nothing : P empty)
    (new : ∀ path, Q (Node.new path)) (insert : ∀ d node, Q node → P d → P (d.insert node))
    (addTarget : ∀ d i target, target ≠ "" → P d → P (d.addTarget i target))
    (operations : List Operation) (named : ∀ node, .insert node ∈ operations → Q node) :
    P (ofOperations operations) := by
  unfold ofOperations
  generalize empty = d at nothing
  induction operations generalizing d with
  | nil => exact nothing
  | cons operation operations ih =>
      have first : P (d.apply operation) :=
        apply_induction_of new insert addTarget nothing operation
          fun node same => named node (same ▸ List.mem_cons_self)
      exact ih (fun node there => named node (List.mem_cons_of_mem _ there)) _ first

theorem ofOperations_induction {P : Draft → Prop} (nothing : P empty)
    (insert : ∀ d node, P d → P (d.insert node))
    (addTarget : ∀ d i target, target ≠ "" → P d → P (d.addTarget i target))
    (operations : List Operation) : P (ofOperations operations) :=
  ofOperations_induction_of (Q := fun _ => True) nothing (fun _ => trivial)
    (fun d node _ => insert d node) addTarget operations fun _ _ => trivial

/-- Replacing a node in place keeps the paths. -/
theorem pathsOf_insert (d : Draft) (node : Node) :
    pathsOf (d.insert node).entries =
      if node.path ∈ pathsOf d.entries then pathsOf d.entries
      else pathsOf d.entries ++ [node.path] := by
  unfold insert
  cases hp : position? d.entries node.path with
  | none =>
      rw [if_neg (position?_eq_none_iff.mp hp)]
      simp [pathsOf]
  | some i =>
      have there := getElem?_of_position? hp
      rw [if_pos (List.mem_of_getElem? there)]
      apply List.ext_getElem?
      intro j
      rcases eq_or_ne i j with rfl | hne
      · rw [there]
        rw [pathsOf, List.getElem?_map] at there ⊢
        obtain ⟨entry, he, -⟩ := Option.map_eq_some_iff.mp there
        simp [he]
      · simp [pathsOf, hne]

/-- A node with a new path gets an entry behind all others. -/
theorem insert_of_fresh {d : Draft} {node : Node} (fresh : node.path ∉ pathsOf d.entries) :
    d.insert node = ⟨d.entries ++ [⟨node, []⟩]⟩ := by
  rw [insert, position?_eq_none_iff.mpr fresh]

theorem size_insert_of_fresh {d : Draft} {node : Node} (fresh : node.path ∉ pathsOf d.entries) :
    (d.insert node).size = d.size + 1 := by
  rw [insert_of_fresh fresh]
  simp [size]

/-- A node that is added stands at the last place, where its path is found. -/
theorem position?_insert_of_fresh {d : Draft} {node : Node} (fresh : node.path ∉ pathsOf d.entries)
    (path : String) :
    position? (d.insert node).entries path =
      if path = node.path then some d.size else position? d.entries path := by
  have absent : (pathsOf d.entries).idxOf? node.path = none :=
    List.idxOf?_eq_none_iff.mpr fresh
  rw [position?_eq, position?_eq, pathsOf_insert, if_neg fresh, List.idxOf?, List.findIdx?_append,
    ← List.idxOf?]
  split
  · rename_i same
    subst same
    rw [absent]
    simp [pathsOf, size]
  · rename_i other
    cases (pathsOf d.entries).idxOf? path <;> simp [Ne.symm other]

/-- Replacing a node in place keeps its targets, and a new entry has none. -/
theorem map_targets_insert (d : Draft) (node : Node) :
    (d.insert node).entries.map Entry.targets =
      if node.path ∈ pathsOf d.entries then d.entries.map Entry.targets
      else d.entries.map Entry.targets ++ [[]] := by
  unfold insert
  cases hp : position? d.entries node.path with
  | none =>
      rw [if_neg (position?_eq_none_iff.mp hp)]
      simp
  | some i =>
      rw [if_pos (List.mem_of_getElem? (getElem?_of_position? hp))]
      exact map_modify_of_same fun _ => rfl

theorem pathsOf_addTarget (d : Draft) (i : Nat) (target : String) :
    pathsOf (d.addTarget i target).entries = pathsOf d.entries :=
  map_modify_of_same fun _ => rfl

/-- No two nodes have one path. -/
theorem nodup_pathsOf (operations : List Operation) :
    (pathsOf (ofOperations operations).entries).Nodup := by
  apply ofOperations_induction (P := fun d => (pathsOf d.entries).Nodup)
  · exact List.nodup_nil
  · intro d node h
    rw [pathsOf_insert]
    split
    · exact h
    · rename_i fresh
      exact List.nodup_append.mpr ⟨h, List.nodup_singleton _,
        fun a ha b hb => by rintro rfl; exact fresh (List.mem_singleton.mp hb ▸ ha)⟩
  · intro d i target _ h
    rw [pathsOf_addTarget]
    exact h

end Draft

/-- What holds of every graph that was built: distinct paths, and its own cycles. -/
structure WellFormed (g : Graph) : Prop where
  distinct : (pathsOf g.entries).Nodup
  cycles_eq : g.cycles = cyclesOf g.entries

theorem Draft.wellFormed_build (operations : List Draft.Operation) :
    (Draft.ofOperations operations).build.WellFormed :=
  ⟨nodup_pathsOf operations, rfl⟩

end CommitSplit.Graph
