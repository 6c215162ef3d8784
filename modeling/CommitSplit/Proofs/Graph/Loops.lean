import CommitSplit.CommandLine.Answer
import CommitSplit.Proofs.Graph.Cycles
import CommitSplit.Proofs.Graph.Members
import Mathlib.Data.List.Chain
import Mathlib.Data.List.Permutation

/-!
# Loops behind a cycle

A cycle of a graph is a whole component, with its members in the order of the nodes. So one member
need not depend on the next, and a component may have no loop at all that passes each member once.
What there is in every case is a loop of dependencies that stays among the members and meets them
in the order in which they are listed, some of them more than once. A component of one or two
members is such a loop as it is.
-/

namespace CommitSplit.Graph

variable {g : Graph} {cycle members : List String} {a b c : String}

/-- Each path directly depends on the next one, and the last on the first. -/
def IsLoop (g : Graph) (loop : List String) : Prop :=
  loop ≠ [] ∧ (loop ++ loop.head?.toList).IsChain fun a b => b ∈ g.dependencies a

instance (g : Graph) (loop : List String) : Decidable (g.IsLoop loop) :=
  inferInstanceAs (Decidable (_ ∧ _))

/-! ## Walks as lists -/

/-- A walk as the list of what it passes on its way. -/
theorem exists_isChain_of_transGen {α : Type} {r : α → α → Prop} {a b : α}
    (walk : Relation.TransGen r a b) : ∃ between, (a :: (between ++ [b])).IsChain r := by
  induction walk using Relation.TransGen.head_induction_on with
  | single step => exact ⟨[], .cons_cons step (.singleton b)⟩
  | @head a c step _ ih =>
      obtain ⟨between, chain⟩ := ih
      exact ⟨c :: between, .cons_cons step chain⟩

/-- When walks lead from each item to each other one, a single walk meets any items in any order. -/
theorem exists_isChain_of_linked {α : Type} {r : α → α → Prop} {items : List α}
    (linked : ∀ a ∈ items, ∀ b ∈ items, Relation.TransGen r a b) {a z : α} {rest : List α}
    (listed : a :: rest ⊆ items) (hz : z ∈ items) :
    ∃ walk, rest.Sublist walk ∧ (a :: (walk ++ [z])).IsChain r := by
  induction rest generalizing a with
  | nil =>
      obtain ⟨between, chain⟩ :=
        exists_isChain_of_transGen (linked a (listed List.mem_cons_self) z hz)
      exact ⟨between, List.nil_sublist between, chain⟩
  | cons b rest ih =>
      obtain ⟨ha, listed⟩ := List.cons_subset.mp listed
      obtain ⟨walk, met, chain⟩ := ih listed
      obtain ⟨between, front⟩ :=
        exists_isChain_of_transGen (linked a ha b (listed List.mem_cons_self))
      refine ⟨between ++ b :: walk, (met.cons_cons b).trans (List.sublist_append_right _ _), ?_⟩
      have joined : (a :: between ++ [b] ++ (walk ++ [z])).IsChain r :=
        List.IsChain.append_overlap front chain (List.cons_ne_nil b [])
      simpa using joined

/-! ## Members of a cycle -/

namespace WellFormed

/-- What lies on a way from a member of a cycle back to it is a member too. -/
theorem mem_cycle_of_transGen (h : g.WellFormed) (hc : cycle ∈ g.cycles) (ha : a ∈ cycle)
    (forth : Relation.TransGen g.Depends a c) (back : Relation.TransGen g.Depends c a) :
    c ∈ cycle := by
  obtain ⟨cycle', hc', ha', member⟩ := h.exists_cycle_iff.mpr ⟨forth, back⟩
  rwa [h.eq_of_mem_cycles hc hc' ha ha']

/-- Dependencies among the members of a cycle lead from each of them to every one. -/
theorem transGen_dependsAmong_of_mem_cycle (h : g.WellFormed) (hc : cycle ∈ g.cycles)
    (ha : a ∈ cycle) (hb : b ∈ cycle) : Relation.TransGen (g.DependsAmong cycle) a b := by
  obtain ⟨walk, back⟩ := h.exists_cycle_iff.mp ⟨cycle, hc, ha, hb⟩
  induction walk using Relation.TransGen.head_induction_on with
  | single step => exact .single ⟨⟨ha, hb⟩, step.1⟩
  | @head a c step rest ih =>
      have hc' : c ∈ cycle := h.mem_cycle_of_transGen hc ha (.single step) (rest.trans back)
      exact .head ⟨⟨ha, hc'⟩, step.1⟩ (ih hc' (back.tail step))

end WellFormed

/-- A walk between two members that has nothing else to pass takes the step between them. -/
theorem mem_dependencies_of_pair (only : ∀ c ∈ members, c = a ∨ c = b)
    (walk : Relation.TransGen (g.DependsAmong members) a c) (ends : c = b) :
    b ∈ g.dependencies a := by
  induction walk with
  | single step => exact ends ▸ step.2
  | tail _ last ih =>
      rcases only _ last.1.1 with rfl | there
      · exact ends ▸ last.2
      · exact ih there

/-! ## Loops -/

namespace WellFormed

/-- A loop of dependencies stays among the members of a cycle and meets them as they are listed. -/
theorem exists_loop_of_mem_cycles (h : g.WellFormed) (hc : cycle ∈ g.cycles) :
    ∃ loop, g.IsLoop loop ∧ loop.head? = cycle.head? ∧ cycle.Sublist loop ∧ loop ⊆ cycle := by
  obtain ⟨a, rest, rfl⟩ := List.exists_cons_of_ne_nil (h.ne_nil_of_mem_cycles hc)
  obtain ⟨walk, met, chain⟩ := exists_isChain_of_linked
    (fun _ ha _ hb => h.transGen_dependsAmong_of_mem_cycle hc ha hb) (List.Subset.refl _)
    List.mem_cons_self
  have inside : ∀ b ∈ walk ++ [a], b ∈ a :: rest :=
    chain.cons_induction (· ∈ a :: rest) _ (fun _ _ step _ => step.1.2) List.mem_cons_self
  refine ⟨a :: walk, ⟨List.cons_ne_nil a walk, ?_⟩, rfl, met.cons_cons a, ?_⟩
  · exact List.IsChain.imp (fun _ _ step => step.2) chain
  · exact List.cons_subset.mpr
      ⟨List.mem_cons_self, fun b there => inside b (List.mem_append_left _ there)⟩

/-- A cycle of at most two members is a loop. -/
theorem isLoop_of_length_le_two (h : g.WellFormed) (hc : cycle ∈ g.cycles)
    (short : cycle.length ≤ 2) : g.IsLoop cycle := by
  have linked {a b : String} (ha : a ∈ cycle) (hb : b ∈ cycle)
      (only : ∀ c ∈ cycle, c = a ∨ c = b) : b ∈ g.dependencies a :=
    mem_dependencies_of_pair only (h.transGen_dependsAmong_of_mem_cycle hc ha hb) rfl
  refine ⟨h.ne_nil_of_mem_cycles hc, ?_⟩
  match cycle with
  | [] => exact .nil
  | [a] =>
      have step : a ∈ g.dependencies a := linked (by simp) (by simp) (by simp)
      exact .cons_cons step (.singleton a)
  | [a, b] =>
      have forth : b ∈ g.dependencies a := linked (by simp) (by simp) (by simp)
      have back : a ∈ g.dependencies b := linked (by simp) (by simp) (by simp [or_comm])
      exact .cons_cons forth (.cons_cons back (.singleton a))
  | _ :: _ :: _ :: _ => simp at short

end WellFormed

/-- Behind every cycle of a graph that was built is a loop of dependencies: it starts at the first
member, meets the members in the order in which they are listed and shown, and passes nothing else.
A cycle of at most two members is itself a loop. -/
theorem loops_of_build (operations : List Draft.Operation) :
    let g := (Draft.ofOperations operations).build
    ∀ cycle ∈ g.cycles,
      (∃ loop, g.IsLoop loop ∧ loop.head? = cycle.head? ∧ cycle.Sublist loop ∧ loop ⊆ cycle) ∧
        (cycle.length ≤ 2 → g.IsLoop cycle) ∧
        "cycle: " ++ String.intercalate " -> " cycle ∈
          (CommandLine.Answer.graph g false).lines := by
  intro g cycle hc
  have h : g.WellFormed := Draft.wellFormed_build operations
  refine ⟨h.exists_loop_of_mem_cycles hc, h.isLoop_of_length_le_two hc, ?_⟩
  exact List.mem_append_right _ (List.mem_map_of_mem hc)

/-- Two rings that share a node are one cycle. -/
theorem loops_of_build_of_shared_node :
    let g := (Draft.ofOperations
      [.addDependency "a" "b", .addDependencies "b" ["a", "c"], .addDependency "c" "b"]).build
    ["a", "b", "c"] ∈ g.cycles ∧
      ∃ loop, g.IsLoop loop ∧ loop.head? = some "a" ∧ ["a", "b", "c"].Sublist loop ∧
        loop ⊆ ["a", "b", "c"] := by
  intro g
  have listed : ["a", "b", "c"] ∈ g.cycles := by decide +kernel
  exact ⟨listed, (loops_of_build _ _ listed).1⟩

/-- The order of the nodes can go against a ring, and two rings that share a node are not a loop in
any order. -/
theorem cycles_ne_loops :
    let ring := (Draft.ofOperations [.insert (.new "a"), .insert (.new "b"),
      .addDependency "a" "c", .addDependency "c" "b", .addDependency "b" "a"]).build
    let rings := (Draft.ofOperations
      [.addDependency "a" "b", .addDependencies "b" ["a", "c"], .addDependency "c" "b"]).build
    (ring.cycles = [["a", "b", "c"]] ∧ ¬ring.IsLoop ["a", "b", "c"] ∧
        ring.IsLoop ["a", "c", "b"]) ∧
      rings.cycles = [["a", "b", "c"]] ∧
        ∀ loop, loop.Perm ["a", "b", "c"] → ¬rings.IsLoop loop := by
  intro ring rings
  have none_left : ∀ loop ∈ ["a", "b", "c"].permutations', ¬rings.IsLoop loop := by decide
  refine ⟨by decide +kernel, by decide +kernel, fun loop perm => ?_⟩
  exact none_left loop (List.mem_permutations'.mpr perm)

end CommitSplit.Graph
