import CommitSplit.Proofs.Digraph.Reachability
import CommitSplit.Proofs.FirstSeen
import CommitSplit.Proofs.Graph.Construction
import CommitSplit.Proofs.Table

/-!
# Dependence between nodes

One node depends on another when the other is among its dependencies and is a node itself. This is
the relation of which the digraph on places is an image: steps and walks between paths are steps and
walks between their places.
-/

namespace CommitSplit.Graph

/-- One node directly depends on another; a target without a node takes no part. -/
def Depends (g : Graph) (a b : String) : Prop :=
  b ∈ g.dependencies a ∧ g.contains b = true

/-- The digraph of a graph, on the places of its entries. -/
abbrev successors (g : Graph) : Nat → List Nat :=
  successorsIn (adjacency g.entries)

/-- The external targets are those of some node that are no nodes themselves. -/
theorem mem_external_iff {g : Graph} {target : String} :
    target ∈ g.external ↔ (∃ entry ∈ g.entries, target ∈ entry.targets) ∧ target ∉ g.paths := by
  rw [external, FirstSeen.mem_of, List.mem_filter, List.mem_flatMap, ← contains_iff]
  simp only [Bool.not_eq_true', Bool.not_eq_true]

theorem edge_iff {entries : List Entry} {i j : Nat} :
    Digraph.Edge (successorsIn (adjacency entries)) i j ↔
      ∃ entry, entries[i]? = some entry ∧
        ∃ target ∈ entry.targets, position? entries target = some j := by
  unfold Digraph.Edge successorsIn adjacency
  cases h : entries[i]? with
  | none => simp [h]
  | some entry => simp [h]

theorem bounded_successors (g : Graph) : Digraph.Bounded g.size g.successors := by
  intro i j edge
  obtain ⟨_, -, target, -, found⟩ := edge_iff.mp edge
  have there := (List.getElem?_eq_some_iff.mp (getElem?_of_position? found)).1
  simpa [pathsOf, size] using there

/-- The entry of a path is the one that has it. -/
theorem entry?_eq_some_iff {g : Graph} (distinct : (pathsOf g.entries).Nodup) {path : String}
    {entry : Entry} : g.entry? path = some entry ↔ entry ∈ g.entries ∧ entry.node.path = path := by
  unfold entry?
  rw [Table.find?_eq_some_iff_of_unique, decide_eq_true_iff]
  intro entry there other there' path path'
  simp only [decide_eq_true_eq] at path path'
  exact List.inj_on_of_nodup_map distinct there there' (path.trans path'.symm)

theorem mem_dependencies_iff {g : Graph} (distinct : (pathsOf g.entries).Nodup) {a b : String} :
    b ∈ g.dependencies a ↔ ∃ entry ∈ g.entries, entry.node.path = a ∧ b ∈ entry.targets := by
  constructor
  · intro member
    cases found : g.entry? a with
    | none => simp [dependencies, found] at member
    | some entry =>
        obtain ⟨there, path⟩ := (entry?_eq_some_iff distinct).mp found
        exact ⟨entry, there, path, by simpa [dependencies, found] using member⟩
  · rintro ⟨entry, there, path, member⟩
    rw [dependencies, (entry?_eq_some_iff distinct).mpr ⟨there, path⟩]
    exact member

theorem Depends.left_mem {g : Graph} (distinct : (pathsOf g.entries).Nodup) {a b : String}
    (h : g.Depends a b) : a ∈ g.paths := by
  obtain ⟨entry, there, rfl, -⟩ := (mem_dependencies_iff distinct).mp h.1
  exact List.mem_map_of_mem there

theorem Depends.right_mem {g : Graph} {a b : String} (h : g.Depends a b) : b ∈ g.paths :=
  (contains_iff g b).mp h.2

namespace WellFormed

variable {g : Graph} {a b : String} {i j : Nat}

/-- A path stands at one place. -/
theorem place_unique (h : g.WellFormed) (hi : g.paths[i]? = some a) (hj : g.paths[j]? = some a) :
    i = j :=
  (List.getElem?_inj (List.getElem?_eq_some_iff.mp hi).1 h.distinct).mp (hi.trans hj.symm)

/-- Dependence is an edge between the places. -/
theorem depends_iff_edge (h : g.WellFormed) (hi : g.paths[i]? = some a)
    (hj : g.paths[j]? = some b) :
    g.Depends a b ↔ Digraph.Edge g.successors i j := by
  rw [edge_iff, Depends, mem_dependencies_iff h.distinct, contains_iff]
  constructor
  · rintro ⟨⟨entry, there, path, member⟩, -⟩
    obtain ⟨k, hk⟩ := List.getElem?_of_mem there
    have same : k = i := h.place_unique (by simp [paths, hk, path]) hi
    exact ⟨entry, same ▸ hk, b, member, (position?_eq_some_iff h.distinct).mpr hj⟩
  · rintro ⟨entry, hk, target, member, found⟩
    have there : g.paths[j]? = some target := getElem?_of_position? found
    obtain rfl : target = b := Option.some_inj.mp (there.symm.trans hj)
    have path : entry.node.path = a := by simpa [paths, hk] using hi
    exact ⟨⟨entry, List.mem_of_getElem? hk, path, member⟩, List.mem_of_getElem? hj⟩

/-- Walks of dependencies are walks between the places. -/
theorem transGen_iff (h : g.WellFormed) (hi : g.paths[i]? = some a) (hj : g.paths[j]? = some b) :
    Relation.TransGen g.Depends a b ↔ Relation.TransGen (Digraph.Edge g.successors) i j := by
  constructor
  · intro walk
    induction walk generalizing j with
    | single last => exact .single ((h.depends_iff_edge hi hj).mp last)
    | tail _ last ih =>
        obtain ⟨k, hk⟩ := List.getElem?_of_mem (last.left_mem h.distinct)
        exact (ih hk).tail ((h.depends_iff_edge hk hj).mp last)
  · intro walk
    induction walk generalizing b with
    | single last => exact .single ((h.depends_iff_edge hi hj).mpr last)
    | @tail k _ front last ih =>
        have inside : k < g.paths.length := by
          simpa [paths, size] using (bounded_successors g).lt_of_transGen front
        have hk : g.paths[k]? = some g.paths[k] := List.getElem?_eq_getElem inside
        exact (ih hk).tail ((h.depends_iff_edge hk hj).mpr last)

end WellFormed

/-- A walk of dependencies ends at a node. -/
theorem right_mem_of_transGen {g : Graph} {a b : String}
    (walk : Relation.TransGen g.Depends a b) : b ∈ g.paths := by
  obtain ⟨_, -, last⟩ := Relation.TransGen.tail'_iff.mp walk
  exact last.right_mem

end CommitSplit.Graph
