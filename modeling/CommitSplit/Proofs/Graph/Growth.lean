import CommitSplit.Proofs.Graph.Dependence

/-!
# How drafts grow

Operations only add to a draft. An entry keeps its place, its path and its targets, in their order,
and what is added behind them is neither there already nor empty. So in the graph that is built the
dependents of a path mirror the dependencies, and every target is either a node or external.
-/

namespace CommitSplit

theorem FirstSeen.prefix_add {α : Type} [DecidableEq α] (seen : List α) (x : α) :
    seen <+: add seen x := by
  unfold add
  split
  · exact List.prefix_refl seen
  · exact List.prefix_append seen [x]

namespace Graph

namespace Draft

/-- The entries of a draft stand in another one at the same places, with the same paths and with at
least their targets. -/
def KeptIn (d d' : Draft) : Prop :=
  ∀ (i : Nat) (entry : Entry), d.entries[i]? = some entry →
    ∃ entry' : Entry, d'.entries[i]? = some entry' ∧ entry'.node.path = entry.node.path ∧
      entry.targets <+: entry'.targets

namespace KeptIn

variable {d d' d'' : Draft}

protected theorem refl (d : Draft) : d.KeptIn d :=
  fun _ entry there => ⟨entry, there, rfl, List.prefix_refl _⟩

protected theorem trans (h : d.KeptIn d') (h' : d'.KeptIn d'') : d.KeptIn d'' := by
  intro i entry there
  obtain ⟨entry', there', path_eq, kept⟩ := h i entry there
  obtain ⟨entry'', there'', path_eq', kept'⟩ := h' i entry' there'
  exact ⟨entry'', there'', path_eq'.trans path_eq, kept.trans kept'⟩

/-- Only the entry at one place changes, and that one keeps what it has. -/
theorem modify {i : Nat} {change : Entry → Entry}
    (keeps : ∀ entry, d.entries[i]? = some entry →
      (change entry).node.path = entry.node.path ∧ entry.targets <+: (change entry).targets) :
    d.KeptIn ⟨d.entries.modify i change⟩ := by
  intro j entry there
  rcases eq_or_ne i j with rfl | other
  · exact ⟨change entry, by simp [there], keeps entry there⟩
  · exact ⟨entry, by simp [there, other], rfl, List.prefix_refl _⟩

theorem insert (d : Draft) (node : Node) : d.KeptIn (d.insert node) := by
  unfold Draft.insert
  split
  · rename_i i found
    refine .modify fun entry there => ⟨?_, List.prefix_refl _⟩
    have place := getElem?_of_position? found
    rw [pathsOf, List.getElem?_map, there, Option.map_some, Option.some_inj] at place
    exact place.symm
  · intro i entry there
    have inside := (List.getElem?_eq_some_iff.mp there).1
    exact ⟨entry, by rw [List.getElem?_append_left inside, there], rfl, List.prefix_refl _⟩

theorem addTarget (d : Draft) (i : Nat) (target : String) : d.KeptIn (d.addTarget i target) :=
  .modify fun entry _ => ⟨rfl, FirstSeen.prefix_add entry.targets target⟩

/-- No operation moves an entry or takes a target away. -/
theorem apply (d : Draft) (operation : Operation) : d.KeptIn (d.apply operation) :=
  apply_induction (fun d' node h => h.trans (insert d' node))
    (fun d' i target _ h => h.trans (addTarget d' i target)) (.refl d) operation

end KeptIn

/-- Targets are listed once, and none is empty. -/
def HasProperTargets (d : Draft) : Prop :=
  ∀ entry ∈ d.entries, entry.targets.Nodup ∧ "" ∉ entry.targets

theorem HasProperTargets.modify {d : Draft} (h : d.HasProperTargets) {i : Nat}
    {change : Entry → Entry}
    (keeps : ∀ entry ∈ d.entries, (change entry).targets.Nodup ∧ "" ∉ (change entry).targets) :
    HasProperTargets ⟨d.entries.modify i change⟩ := by
  intro entry there
  obtain ⟨j, hj⟩ := List.getElem?_of_mem there
  rw [List.getElem?_modify] at hj
  obtain ⟨old, hold, rfl⟩ := Option.map_eq_some_iff.mp hj
  split
  · exact keeps old (List.mem_of_getElem? hold)
  · exact h old (List.mem_of_getElem? hold)

theorem hasProperTargets_ofOperations (operations : List Operation) :
    (ofOperations operations).HasProperTargets := by
  apply ofOperations_induction (P := HasProperTargets)
  · exact nofun
  · intro d node h
    unfold Draft.insert
    split
    · exact h.modify h
    · exact List.forall_mem_append.mpr ⟨h, by simp⟩
  · intro d i target some_target h
    refine h.modify fun entry there => ?_
    obtain ⟨once, some_targets⟩ := h entry there
    refine ⟨FirstSeen.nodup_add target once, fun blank => ?_⟩
    rcases FirstSeen.mem_add.mp blank with old | new
    · exact some_targets old
    · exact some_target new.symm

end Draft

/-! ## Built graphs -/

variable {g : Graph}

/-- Looking from either end finds the same edges. -/
theorem mem_dependencies_iff_mem_dependents (distinct : (pathsOf g.entries).Nodup) (a b : String) :
    b ∈ g.dependencies a ↔ a ∈ g.dependents b := by
  rw [mem_dependencies_iff distinct, dependents, List.mem_map]
  simp only [List.mem_filter, decide_eq_true_eq]
  constructor
  · rintro ⟨entry, there, path, target⟩
    exact ⟨entry, ⟨there, target⟩, path⟩
  · rintro ⟨entry, ⟨there, target⟩, path⟩
    exact ⟨entry, there, path, target⟩

/-- A target has a node, or it is listed as external, once and not both. -/
theorem count_external {entry : Entry} {target : String} (there : entry ∈ g.entries)
    (listed : target ∈ entry.targets) :
    g.external.count target = if target ∈ g.paths then 0 else 1 := by
  have once : g.external.Nodup := FirstSeen.nodup_of _
  have outside : target ∈ g.external ↔ target ∉ g.paths := by
    rw [mem_external_iff, and_iff_right ⟨entry, there, listed⟩]
  rw [once.count]
  simp only [outside, ite_not]

end Graph

end CommitSplit
