import CommitSplit.Proofs.Digraph.Components
import CommitSplit.Proofs.Graph.Dependence

/-!
# The cycles of a graph are its cyclic components

A cycle of the graph lists the nodes of one strongly connected component that holds a cycle, in the
order of the nodes. This is carried over from the digraph on places: a component of places is listed
as the paths at these places, and distinct places have distinct paths.
-/

namespace CommitSplit.Graph

/-! ## Paths at places -/

theorem pathsAt_eq (entries : List Entry) (places : List Nat) :
    pathsAt entries places = places.filterMap fun i => (pathsOf entries)[i]? := by
  simp [pathsAt, pathsOf]

theorem mem_pathsAt {entries : List Entry} {places : List Nat} {path : String} :
    path ∈ pathsAt entries places ↔ ∃ i ∈ places, (pathsOf entries)[i]? = some path := by
  rw [pathsAt_eq, List.mem_filterMap]

theorem pathsAt_range (entries : List Entry) :
    pathsAt entries (List.range entries.length) = pathsOf entries := by
  have total : ∀ i ∈ List.range entries.length,
      (pathsOf entries)[i]? = some ((pathsOf entries).getD i "") := by
    intro i hi
    have inside : i < (pathsOf entries).length := by simpa [pathsOf] using hi
    simp [List.getElem?_eq_getElem inside]
  rw [pathsAt_eq, List.filterMap_congr total, List.filterMap_eq_map']
  apply List.ext_getElem (by simp [pathsOf])
  intro i _ inside
  simp [List.getElem?_eq_getElem inside]

/-- Distinct places of distinct paths stay distinct. -/
theorem nodup_pathsAt {entries : List Entry} (distinct : (pathsOf entries).Nodup)
    {places : List Nat} (nodup : places.Nodup) : (pathsAt entries places).Nodup := by
  rw [pathsAt_eq]
  apply nodup.filterMap
  intro i j path hi hj
  have inside : i < (pathsOf entries).length := (List.getElem?_eq_some_iff.mp hi).1
  exact (List.getElem?_inj inside distinct).mp (hi.trans hj.symm)

/-- The first place gives the first path. -/
theorem head?_pathsAt {entries : List Entry} {places : List Nat}
    (inside : ∀ i ∈ places, i < entries.length) :
    (pathsAt entries places).head? = places.head?.bind fun i => (pathsOf entries)[i]? := by
  cases places with
  | nil => rfl
  | cons i places =>
      have hi : i < (pathsOf entries).length := by
        simpa [pathsOf] using inside i List.mem_cons_self
      simp [pathsAt_eq, List.getElem?_eq_getElem hi]

/-! ## Components -/

theorem cyclesOf_eq (g : Graph) :
    cyclesOf g.entries =
      (Digraph.cyclicComponents g.size g.successors).map (pathsAt g.entries) := rfl

namespace WellFormed

variable {g : Graph}

theorem mem_cycles (h : g.WellFormed) {cycle : List String} :
    cycle ∈ g.cycles ↔ ∃ members ∈ Digraph.cyclicComponents g.size g.successors,
      pathsAt g.entries members = cycle := by
  rw [h.cycles_eq, cyclesOf_eq, List.mem_map]

/-- Two nodes share a cycle exactly when each depends on the other through at least one edge. -/
theorem exists_cycle_iff (h : g.WellFormed) {a b : String} :
    (∃ cycle ∈ g.cycles, a ∈ cycle ∧ b ∈ cycle) ↔
      Relation.TransGen g.Depends a b ∧ Relation.TransGen g.Depends b a := by
  have bounded := bounded_successors g
  constructor
  · rintro ⟨cycle, hc, ha, hb⟩
    obtain ⟨members, component, rfl⟩ := h.mem_cycles.mp hc
    obtain ⟨i, hi, pathi⟩ := mem_pathsAt.mp ha
    obtain ⟨j, hj, pathj⟩ := mem_pathsAt.mp hb
    obtain ⟨forth, back⟩ :=
      (Digraph.exists_component_iff bounded).mp ⟨members, component, hi, hj⟩
    exact ⟨(h.transGen_iff pathi pathj).mpr forth, (h.transGen_iff pathj pathi).mpr back⟩
  · rintro ⟨forth, back⟩
    obtain ⟨i, pathi⟩ := List.getElem?_of_mem (right_mem_of_transGen back)
    obtain ⟨j, pathj⟩ := List.getElem?_of_mem (right_mem_of_transGen forth)
    obtain ⟨members, component, hi, hj⟩ := (Digraph.exists_component_iff bounded).mpr
      ⟨(h.transGen_iff pathi pathj).mp forth, (h.transGen_iff pathj pathi).mp back⟩
    exact ⟨_, h.mem_cycles.mpr ⟨members, component, rfl⟩, mem_pathsAt.mpr ⟨i, hi, pathi⟩,
      mem_pathsAt.mpr ⟨j, hj, pathj⟩⟩

/-- A node is in a cycle exactly when it depends on itself through at least one edge. -/
theorem mem_some_cycle_iff (h : g.WellFormed) {a : String} :
    (∃ cycle ∈ g.cycles, a ∈ cycle) ↔ Relation.TransGen g.Depends a a := by
  simpa using h.exists_cycle_iff (a := a) (b := a)

theorem isInCycle_iff (h : g.WellFormed) {a : String} :
    g.isInCycle a = true ↔ Relation.TransGen g.Depends a a := by
  rw [← h.mem_some_cycle_iff]
  simp [isInCycle]

theorem nodup_flatten_cycles (h : g.WellFormed) : g.cycles.flatten.Nodup := by
  have flat : g.cycles.flatten =
      pathsAt g.entries (Digraph.cyclicComponents g.size g.successors).flatten := by
    have same : pathsAt g.entries = List.filterMap fun i => (pathsOf g.entries)[i]? :=
      funext (pathsAt_eq g.entries)
    rw [h.cycles_eq, cyclesOf_eq, same, List.filterMap_flatten]
  rw [flat]
  exact nodup_pathsAt h.distinct (Digraph.nodup_flatten_cyclicComponents (bounded_successors g))

theorem eq_of_mem_cycles (h : g.WellFormed) {cycle cycle' : List String} (hc : cycle ∈ g.cycles)
    (hc' : cycle' ∈ g.cycles) {a : String} (ha : a ∈ cycle) (ha' : a ∈ cycle') :
    cycle = cycle' := by
  obtain ⟨members, component, rfl⟩ := h.mem_cycles.mp hc
  obtain ⟨members', component', rfl⟩ := h.mem_cycles.mp hc'
  obtain ⟨i, hi, pathi⟩ := mem_pathsAt.mp ha
  obtain ⟨j, hj, pathj⟩ := mem_pathsAt.mp ha'
  obtain rfl := h.place_unique pathi pathj
  rw [Digraph.eq_of_mem_cyclicComponents (bounded_successors g) component component' hi hj]

/-- The members of a cycle are listed in the order of the nodes. -/
theorem sublist_paths (h : g.WellFormed) {cycle : List String} (hc : cycle ∈ g.cycles) :
    cycle.Sublist g.paths := by
  obtain ⟨members, component, rfl⟩ := h.mem_cycles.mp hc
  have ascending :=
    Digraph.sublist_of_mem_cyclicComponents (bounded_successors g) component
  rw [paths_eq, ← pathsAt_range, pathsAt_eq, pathsAt_eq]
  exact ascending.filterMap _

theorem head?_of_component {members : List Nat}
    (component : members ∈ Digraph.cyclicComponents g.size g.successors) :
    (pathsAt g.entries members).head? = members.head?.bind fun i => g.paths[i]? := by
  apply head?_pathsAt
  intro i hi
  have ascending := Digraph.sublist_of_mem_cyclicComponents (bounded_successors g) component
  exact List.mem_range.mp (ascending.subset hi)

/-- The cycles come in the order of their first members. -/
theorem heads_sublist_paths (h : g.WellFormed) :
    (g.cycles.filterMap List.head?).Sublist g.paths := by
  have heads : g.cycles.filterMap List.head? = pathsAt g.entries
      ((Digraph.cyclicComponents g.size g.successors).filterMap List.head?) := by
    rw [h.cycles_eq, cyclesOf_eq, List.filterMap_map, pathsAt_eq, List.filterMap_filterMap]
    exact List.filterMap_congr fun members component => head?_of_component component
  rw [heads, paths_eq, ← pathsAt_range, pathsAt_eq, pathsAt_eq]
  exact (Digraph.heads_cyclicComponents_sublist g.size g.successors).filterMap _

theorem ne_nil_of_mem_cycles (h : g.WellFormed) {cycle : List String} (hc : cycle ∈ g.cycles) :
    cycle ≠ [] := by
  obtain ⟨members, component, rfl⟩ := h.mem_cycles.mp hc
  obtain ⟨i, members, rfl⟩ := List.exists_cons_of_ne_nil
    (Digraph.ne_nil_of_mem_cyclicComponents (bounded_successors g) component)
  intro empty
  have first := head?_of_component component
  have ascending := Digraph.sublist_of_mem_cyclicComponents (bounded_successors g) component
  have inside : i < g.paths.length := by
    simpa [paths, size] using ascending.subset List.mem_cons_self
  simp [empty, List.getElem?_eq_getElem inside] at first

/-- A component of one node needs an edge from the node to itself. -/
theorem singleton_mem_cycles_iff (h : g.WellFormed) {a : String} :
    [a] ∈ g.cycles ↔ g.Depends a a ∧
      ∀ b, Relation.TransGen g.Depends a b → Relation.TransGen g.Depends b a → b = a := by
  constructor
  · intro hc
    have alone : ∀ b, Relation.TransGen g.Depends a b → Relation.TransGen g.Depends b a →
        b = a := by
      intro b forth back
      obtain ⟨cycle, hc', ha, hb⟩ := h.exists_cycle_iff.mpr ⟨forth, back⟩
      obtain rfl : cycle = [a] := h.eq_of_mem_cycles hc' hc ha (List.mem_singleton_self a)
      exact List.mem_singleton.mp hb
    have cycle := h.mem_some_cycle_iff.mp ⟨[a], hc, List.mem_singleton_self a⟩
    obtain ⟨b, first, walk⟩ := Relation.TransGen.head'_iff.mp cycle
    rcases Relation.reflTransGen_iff_eq_or_transGen.mp walk with rfl | back
    · exact ⟨first, alone⟩
    · obtain rfl := alone b (.single first) back
      exact ⟨first, alone⟩
  · rintro ⟨loop, alone⟩
    obtain ⟨cycle, hc, ha⟩ := h.mem_some_cycle_iff.mpr (.single loop)
    have only : ∀ b ∈ cycle, b = a := by
      intro b hb
      obtain ⟨forth, back⟩ := h.exists_cycle_iff.mp ⟨cycle, hc, ha, hb⟩
      exact alone b forth back
    have once : cycle.Nodup := h.distinct.sublist (h.sublist_paths hc)
    obtain rfl : cycle = [a] := by
      rw [← List.perm_singleton, List.perm_ext_iff_of_nodup once (List.nodup_singleton a)]
      intro b
      rw [List.mem_singleton]
      exact ⟨only b, fun same => same ▸ ha⟩
    exact hc

end WellFormed

/-! ## What a list of cycles says -/

/-- A list of cycles is the list of the strongly connected components that hold a cycle. -/
structure ListsComponents (g : Graph) (cycles : List (List String)) : Prop where
  /-- Two nodes share an entry exactly when each reaches the other. -/
  together : ∀ a b, (∃ cycle ∈ cycles, a ∈ cycle ∧ b ∈ cycle) ↔
    Relation.TransGen g.Depends a b ∧ Relation.TransGen g.Depends b a
  /-- A component of one node is an entry exactly when the node depends on itself. -/
  single : ∀ a, [a] ∈ cycles ↔ g.Depends a a ∧
    ∀ b, Relation.TransGen g.Depends a b → Relation.TransGen g.Depends b a → b = a
  /-- A node is in some entry exactly when a path leads from it back to itself. -/
  covered : ∀ a, (∃ cycle ∈ cycles, a ∈ cycle) ↔ Relation.TransGen g.Depends a a
  /-- No node is in two entries, or in one of them twice. -/
  once : cycles.flatten.Nodup
  /-- An entry has members, in the order of the nodes. -/
  ordered : ∀ cycle ∈ cycles, cycle ≠ [] ∧ cycle.Sublist g.paths
  /-- The entries come in the order of their first members. -/
  heads : (cycles.filterMap List.head?).Sublist g.paths
  /-- A target without a node is in no entry. -/
  external : ∀ target ∈ g.external, ∀ cycle ∈ cycles, target ∉ cycle

theorem WellFormed.listsComponents {g : Graph} (h : g.WellFormed) : g.ListsComponents g.cycles where
  together _ _ := h.exists_cycle_iff
  single _ := h.singleton_mem_cycles_iff
  covered _ := h.mem_some_cycle_iff
  once := h.nodup_flatten_cycles
  ordered _ hc := ⟨h.ne_nil_of_mem_cycles hc, h.sublist_paths hc⟩
  heads := h.heads_sublist_paths
  external target outside cycle hc member := by
    exact (mem_external_iff.mp outside).2 ((h.sublist_paths hc).subset member)

/-- The cycles of a graph that was built, and those that its entries have, are its cyclic
components; a node lies in a cycle exactly when a path leads from it back to itself. -/
theorem cycles_build_listsComponents (operations : List Draft.Operation) :
    let g := (Draft.ofOperations operations).build
    g.ListsComponents g.cycles ∧ g.cycles = cyclesOf g.entries ∧
      ∀ a, g.isInCycle a = true ↔ Relation.TransGen g.Depends a a := by
  intro g
  have h : g.WellFormed := Draft.wellFormed_build operations
  exact ⟨h.listsComponents, h.cycles_eq, fun _ => h.isInCycle_iff⟩

end CommitSplit.Graph
