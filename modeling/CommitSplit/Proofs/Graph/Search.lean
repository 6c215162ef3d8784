import CommitSplit.Proofs.Digraph.Course
import CommitSplit.Proofs.Graph.Members
import CommitSplit.Proofs.Graph.Order
import Mathlib.Data.Finset.Card

/-!
# The traversal of a graph is a recursive search

A depth-first search is most plainly said by recursion: to search a node is to mark it, to search
what its dependencies lead to, one after the other, and to list it then. A node that is met while it
is marked but not listed shows a cycle. The traversal does the same without recursion: for each node
in progress its stack holds the dependencies that are still to be looked at.

The main statement says that both agree, on every graph, from any roots, with or without a
restriction to some members.
-/

namespace CommitSplit.Graph

/-! ## The recursive search -/

/-- The dependencies of the node at a place. -/
def targetsAt (g : Graph) (i : Nat) : List String :=
  (g.entries[i]?.map Entry.targets).getD []

/-- The node that a dependency leads to: none if it has no node, or if its node is not among the
members. -/
def lead? (g : Graph) (within : Option (List Nat)) (target : String) : Option Nat :=
  (position? g.entries target).filter fun i => within.all fun members => i ∈ members

/-- A dependency of one node leads to the other. -/
def Leads (g : Graph) (within : Option (List Nat)) (i j : Nat) : Prop :=
  ∃ target ∈ g.targetsAt i, position? g.entries target = some j ∧ ∀ members ∈ within, j ∈ members

/-- A search on its way. A node that is neither unvisited nor in progress is finished. -/
structure Search where
  unvisited : Finset Nat
  inProgress : Finset Nat
  cyclic : Bool
  /-- The nodes that were begun. -/
  begun : List Nat
  /-- The nodes that were finished. -/
  order : List Nat

namespace Search

/-- A search of `size` nodes that has not begun. -/
def start (size : Nat) : Search :=
  ⟨Finset.range size, ∅, false, [], []⟩

def enter (s : Search) (node : Nat) : Search :=
  { s with
    unvisited := s.unvisited.erase node
    inProgress := insert node s.inProgress
    begun := s.begun ++ [node] }

def finish (s : Search) (node : Nat) : Search :=
  { s with
    inProgress := s.inProgress.erase node
    order := s.order ++ [node] }

/-- Follows dependencies in turn. Nothing becomes unvisited by it, so the recursion ends. -/
def followed (g : Graph) (within : Option (List Nat)) :
    List String → (s : Search) → { s' : Search // s'.unvisited ⊆ s.unvisited }
  | [], s => ⟨s, subset_rfl⟩
  | target :: targets, s =>
    match g.lead? within target with
    | none => followed g within targets s
    | some next =>
      if fresh : next ∈ s.unvisited then
        let inner := followed g within (g.targetsAt next) (s.enter next)
        let outer := followed g within targets (inner.1.finish next)
        ⟨outer.1, (outer.2.trans inner.2).trans (Finset.erase_ssubset fresh).subset⟩
      else if next ∈ s.inProgress then
        let outer := followed g within targets { s with cyclic := true }
        ⟨outer.1, outer.2⟩
      else followed g within targets s
termination_by targets s => (s.unvisited.card, targets.length)
decreasing_by
  · exact Prod.Lex.right _ (Nat.lt_succ_self _)
  · exact Prod.Lex.left _ _ (Finset.card_erase_lt_of_mem fresh)
  · exact Prod.Lex.left _ _ ((Finset.card_le_card inner.2).trans_lt
      (Finset.card_erase_lt_of_mem fresh))
  · exact Prod.Lex.right _ (Nat.lt_succ_self _)
  · exact Prod.Lex.right _ (Nat.lt_succ_self _)

/-- The search behind the given dependencies. -/
def follow (g : Graph) (within : Option (List Nat)) (targets : List String) (s : Search) : Search :=
  (followed g within targets s).1

/-- The search behind a node that was not visited. -/
def visit (g : Graph) (within : Option (List Nat)) (s : Search) (node : Nat) : Search :=
  (follow g within (g.targetsAt node) (s.enter node)).finish node

variable {g : Graph} {within : Option (List Nat)} {target : String} {targets : List String}
  {s : Search} {next : Nat}

theorem unvisited_follow_subset (g : Graph) (within : Option (List Nat)) (targets : List String)
    (s : Search) : (follow g within targets s).unvisited ⊆ s.unvisited :=
  (followed g within targets s).2

@[simp] theorem follow_nil (g : Graph) (within : Option (List Nat)) (s : Search) :
    follow g within [] s = s := by
  rw [follow, followed]

theorem follow_of_astray (astray : g.lead? within target = none) :
    follow g within (target :: targets) s = follow g within targets s := by
  rw [follow, followed, astray]
  rfl

theorem follow_of_unvisited (lead : g.lead? within target = some next)
    (fresh : next ∈ s.unvisited) :
    follow g within (target :: targets) s =
      follow g within targets (s.visit g within next) := by
  rw [follow, followed, lead]
  simp only [dif_pos fresh]
  rfl

theorem follow_of_inProgress (lead : g.lead? within target = some next)
    (met : next ∉ s.unvisited) (inside : next ∈ s.inProgress) :
    follow g within (target :: targets) s = follow g within targets { s with cyclic := true } := by
  rw [follow, followed, lead]
  simp only [dif_neg met, if_pos inside]
  rfl

theorem follow_of_finished (lead : g.lead? within target = some next)
    (met : next ∉ s.unvisited) (outside : next ∉ s.inProgress) :
    follow g within (target :: targets) s = follow g within targets s := by
  rw [follow, followed, lead]
  simp only [dif_neg met, if_neg outside]
  rfl

/-- The recursion of a search, by what a dependency leads to. -/
theorem follow_induction (g : Graph) (within : Option (List Nat))
    {motive : List String → Search → Prop} (nil : ∀ s, motive [] s)
    (astray : ∀ target targets s, g.lead? within target = none →
      motive targets s → motive (target :: targets) s)
    (unvisited : ∀ target targets s next, g.lead? within target = some next → next ∈ s.unvisited →
      motive (g.targetsAt next) (s.enter next) → motive targets (s.visit g within next) →
      motive (target :: targets) s)
    (inProgress : ∀ target targets s next, g.lead? within target = some next →
      next ∉ s.unvisited → next ∈ s.inProgress → motive targets { s with cyclic := true } →
      motive (target :: targets) s)
    (finished : ∀ target targets s next, g.lead? within target = some next →
      next ∉ s.unvisited → next ∉ s.inProgress → motive targets s →
      motive (target :: targets) s) (targets : List String) (s : Search) : motive targets s :=
  followed.induct g within motive nil (fun target targets s => astray target targets s)
    (fun target targets s next lead fresh inside _ behind =>
      unvisited target targets s next lead fresh inside behind)
    inProgress finished targets s

end Search

/-- The search from roots in turn. -/
def Search.roam (g : Graph) (within : Option (List Nat)) (s : Search) (roots : List Nat) : Search :=
  roots.foldl (fun s root => if root ∈ s.unvisited then s.visit g within root else s) s

def search (g : Graph) (roots : List Nat) (within : Option (List Nat)) : Search :=
  (Search.start g.size).roam g within roots

/-! ## Walks that are at the same place as a search -/

/-- The places that the dependencies of a node lead to. -/
def leads (g : Graph) (within : Option (List Nat)) (i : Nat) : List Nat :=
  (g.targetsAt i).filterMap (g.lead? within)

open Digraph (Walk)

/-- A walk has met and finished the same nodes as a search. -/
structure Search.Agrees (s : Search) (w : Walk) : Prop where
  unvisited : ∀ i, w.mark i = .unvisited ↔ i ∈ s.unvisited
  inProgress : ∀ i, w.mark i = .inProgress ↔ i ∈ s.inProgress
  cyclic : w.cyclic = s.cyclic
  finished : w.finished = s.order.reverse

namespace Search.Agrees

variable {g : Graph} {within : Option (List Nat)} {s : Search} {w : Walk} {node : Nat}

theorem start (size : Nat) : Agrees (start size) (.start size) where
  unvisited i := by
    rw [(Walk.Marked.start size).unvisited_iff]
    simp [Search.start, Walk.start, Walk.trail]
  inProgress i := by
    rw [(Walk.Marked.start size).inProgress_iff]
    simp [Search.start, Walk.start, Walk.trail]
  cyclic := rfl
  finished := rfl

theorem mark_eq_done (h : Agrees s w) (met : node ∉ s.unvisited) (outside : node ∉ s.inProgress) :
    w.mark node = .done := by
  cases hm : w.mark node with
  | unvisited => exact absurd ((h.unvisited node).mp hm) met
  | inProgress => exact absurd ((h.inProgress node).mp hm) outside
  | done => rfl

/-- The stack is the business of the walk alone. -/
theorem of_stack {marks cyclic finished stack} (stack' : List (Nat × List Nat))
    (h : Agrees s ⟨marks, cyclic, finished, stack⟩) :
    Agrees s ⟨marks, cyclic, finished, stack'⟩ :=
  ⟨h.unvisited, h.inProgress, h.cyclic, h.finished⟩

theorem enter (h : Agrees s w) (fresh : node ∈ s.unvisited) (successors : Nat → List Nat) :
    Agrees (s.enter node) (w.enter successors node) := by
  have marks : ∀ i, (w.enter successors node).mark i =
      if i = node then .inProgress else w.mark i :=
    Walk.mark_enter ((h.unvisited node).mpr fresh)
  refine ⟨fun i => ?_, fun i => ?_, h.cyclic, h.finished⟩
  · rw [marks, Search.enter, Finset.mem_erase, ← h.unvisited]
    split <;> simp [*]
  · rw [marks, Search.enter, Finset.mem_insert, ← h.inProgress]
    split <;> simp [*]

theorem finish {marks cyclic finished rest stack}
    (h : Agrees s ⟨marks, cyclic, finished, (node, rest) :: stack⟩) (met : node ∉ s.unvisited) :
    Agrees (s.finish node) ⟨marks.setIfInBounds node .done, cyclic, node :: finished, stack⟩ := by
  have marks' : ∀ i, Walk.mark ⟨marks.setIfInBounds node .done, cyclic, node :: finished, stack⟩ i =
      if i = node then .done else Walk.mark ⟨marks, cyclic, finished, (node, rest) :: stack⟩ i :=
    Walk.getD_setIfInBounds_done marks node
  refine ⟨fun i => ?_, fun i => ?_, h.cyclic, ?_⟩
  · rw [marks', Search.finish, ← h.unvisited]
    split
    · rename_i same
      subst same
      simp [h.unvisited, met]
    · exact Iff.rfl
  · rw [marks', Search.finish, Finset.mem_erase, ← h.inProgress]
    split <;> simp [*]
  · change node :: finished = (s.order ++ [node]).reverse
    rw [List.reverse_append, List.reverse_singleton, List.singleton_append, ← h.finished]

/-- Wherever a walk agrees with the search, it looks at what the dependencies lead to from its
innermost node as the search follows them, and begins the same nodes. -/
def Follows (g : Graph) (within : Option (List Nat)) (targets : List String) (s : Search) : Prop :=
  ∀ {w node stack}, Agrees s w →
    w.stack = (node, targets.filterMap (g.lead? within)) :: stack →
    ∃ course w', Walk.Moves (g.leads within) w course w' ∧
      Agrees (follow g within targets s) w' ∧ w'.stack = (node, []) :: stack ∧
      (follow g within targets s).begun = s.begun ++ course

/-- Then a walk that begins a node leaves it behind as the search does. -/
theorem Follows.visit (inside : Follows g within (g.targetsAt node) (s.enter node))
    (h : Agrees s w) (fresh : node ∈ s.unvisited) :
    ∃ inner v, Walk.Moves (g.leads within) (w.enter (g.leads within) node) inner v ∧
      Agrees (s.visit g within node) v ∧ v.stack = w.stack ∧
      (s.visit g within node).begun = s.begun ++ node :: inner := by
  obtain ⟨inner, ⟨marks, cyclic, finished, _⟩, moves, agrees, rfl, begun⟩ :=
    inside (h.enter fresh (g.leads within)) rfl
  have met : node ∉ (follow g within (g.targetsAt node) (s.enter node)).unvisited := fun left =>
    Finset.notMem_erase node _ (unvisited_follow_subset _ _ _ _ left)
  refine ⟨inner, _, ?_, agrees.finish met, rfl, ?_⟩
  · simpa using moves.trans (.finish .refl)
  · calc (s.visit g within node).begun
      _ = (s.begun ++ [node]) ++ inner := begun
      _ = s.begun ++ node :: inner := List.append_cons .. |>.symm

theorem follows (g : Graph) (within : Option (List Nat)) (targets : List String) (s : Search) :
    Follows g within targets s := by
  induction targets, s using follow_induction g within with
  | nil s =>
      intro w node stack h front
      exact ⟨[], w, .refl, by simpa using h, front, by simp⟩
  | astray target targets s astray ih =>
      intro w node stack h front
      rw [List.filterMap_cons_none astray] at front
      rw [follow_of_astray astray]
      exact ih h front
  | unvisited target targets s next lead fresh inside behind =>
      rintro ⟨marks, cyclic, finished, _⟩ node stack h front
      rw [List.filterMap_cons_some lead] at front
      obtain rfl := front
      rw [follow_of_unvisited lead fresh]
      have shorter := h.of_stack ((node, targets.filterMap (g.lead? within)) :: stack)
      obtain ⟨inner, v, there, agrees, back, begun⟩ := inside.visit shorter fresh
      obtain ⟨course, w', onward, agrees', stack', begun'⟩ := behind agrees back
      refine ⟨next :: (inner ++ course), w', .descend ((h.unvisited next).mpr fresh)
        (there.trans onward), agrees', stack', ?_⟩
      rw [begun', begun, List.append_assoc, List.cons_append]
  | inProgress target targets s next lead met inside ih =>
      rintro ⟨marks, cyclic, finished, _⟩ node stack h front
      rw [List.filterMap_cons_some lead] at front
      obtain rfl := front
      rw [follow_of_inProgress lead met inside]
      have closed : Agrees { s with cyclic := true } ⟨marks, true, finished,
          (node, targets.filterMap (g.lead? within)) :: stack⟩ :=
        ⟨h.unvisited, h.inProgress, rfl, h.finished⟩
      obtain ⟨course, w', onward, agrees, stack', begun⟩ := ih closed rfl
      exact ⟨course, w', .close ((h.inProgress next).mpr inside) onward, agrees, stack', begun⟩
  | finished target targets s next lead met outside ih =>
      rintro ⟨marks, cyclic, finished, _⟩ node stack h front
      rw [List.filterMap_cons_some lead] at front
      obtain rfl := front
      rw [follow_of_finished lead met outside]
      have shorter := h.of_stack ((node, targets.filterMap (g.lead? within)) :: stack)
      obtain ⟨course, w', onward, agrees, stack', begun⟩ := ih shorter rfl
      exact ⟨course, w', .skip (h.mark_eq_done met outside) onward, agrees, stack', begun⟩

/-- So a walk through roots passes and visits the same ones as the search. -/
theorem visits_roam (g : Graph) (within : Option (List Nat)) (roots : List Nat) (h : Agrees s w)
    (outside : w.stack = []) :
    ∃ course w', Walk.Visits (g.leads within) w roots course w' ∧
      Agrees (s.roam g within roots) w' ∧ (s.roam g within roots).begun = s.begun ++ course := by
  induction roots generalizing s w with
  | nil => exact ⟨[], w, .nil, h, (List.append_nil _).symm⟩
  | cons root roots ih =>
      rw [roam, List.foldl_cons, ← roam]
      split
      · rename_i fresh
        have inside : Follows g within (g.targetsAt root) (s.enter root) := follows g within _ _
        obtain ⟨inner, v, moves, agrees, back, begun⟩ := inside.visit h fresh
        have left := back.trans outside
        obtain ⟨course, w', visits, agrees', begun'⟩ := ih agrees left
        refine ⟨_, w', .enter ((h.unvisited root).mpr fresh) moves left visits, agrees', ?_⟩
        rw [begun', begun, List.append_assoc, List.cons_append]
      · rename_i met
        obtain ⟨course, w', visits, agrees, begun⟩ := ih h outside
        exact ⟨course, w', .pass (mt (h.unvisited root).mp met) visits, agrees, begun⟩

end Search.Agrees

/-! ## The traversal -/

/-- The digraph that a traversal walks on: all edges between nodes, or just those to members. -/
def successorsTo (g : Graph) : Option (List Nat) → Nat → List Nat
  | none => g.successors
  | some members => successorsIn (innerAdjacency g.entries members)

/-- What the traversal from some roots finds. -/
def traversal (g : Graph) (roots : List Nat) (within : Option (List Nat)) : Digraph.Traversal :=
  Digraph.traverse g.size (g.successorsTo within) roots

variable {g : Graph} {within : Option (List Nat)} {roots : List Nat} {i j : Nat}

theorem successorsTo_eq (g : Graph) (within : Option (List Nat)) :
    g.successorsTo within = g.leads within := by
  funext i
  have row : (adjacency g.entries)[i]? =
      g.entries[i]?.map fun entry => entry.targets.filterMap (position? g.entries) := by
    simp [adjacency]
  have places : g.leads within i =
      ((g.entries[i]?.map fun entry =>
        entry.targets.filterMap (position? g.entries)).getD []).filter
          fun i => within.all fun members => i ∈ members := by
    rw [leads, targetsAt]
    cases g.entries[i]? with
    | none => rfl
    | some entry =>
        simp only [Option.map_some, Option.getD_some, List.filter_filterMap]
        rfl
  rw [places, ← row]
  cases within with
  | none => simp [successorsTo, successors, successorsIn, Array.getD_eq_getD_getElem?]
  | some members =>
      simp only [successorsTo, successorsIn, innerAdjacency, Array.getD_eq_getD_getElem?,
        Array.getElem?_map, Option.all_some]
      cases (adjacency g.entries)[i]? <;> rfl

theorem edge_leads_iff : Digraph.Edge (g.leads within) i j ↔ g.Leads within i j := by
  have inside : (within.all fun members => j ∈ members) = true ↔
      ∀ members ∈ within, j ∈ members := by
    cases within <;> simp
  simp only [Digraph.Edge, leads, Leads, lead?, List.mem_filterMap, Option.filter_eq_some_iff,
    inside]

theorem bounded_leads (g : Graph) (within : Option (List Nat)) :
    Digraph.Bounded g.size (g.leads within) := by
  intro i j edge
  obtain ⟨target, -, found, -⟩ := edge_leads_iff.mp edge
  simpa [pathsOf, size] using (List.getElem?_eq_some_iff.mp (getElem?_of_position? found)).1

/-- The walk through the roots ends where the search does, and `traverse` reads off its answer. -/
theorem exists_visits_search (g : Graph) (roots : List Nat) (within : Option (List Nat)) :
    ∃ w, Walk.Visits (g.leads within) (.start g.size) roots (g.search roots within).begun w ∧
      (g.search roots within).Agrees w ∧
      g.traversal roots within = ⟨w.cyclic, w.finished.reverse⟩ := by
  obtain ⟨course, w, visits, agrees, begun⟩ :=
    (Search.Agrees.start g.size).visits_roam g within roots rfl
  obtain rfl : (g.search roots within).begun = course := begun
  refine ⟨w, visits, agrees, ?_⟩
  rw [traversal, successorsTo_eq, Digraph.traverse_eq, (visits.full_eq (bounded_leads g within)).1]

theorem traversal_eq (g : Graph) (roots : List Nat) (within : Option (List Nat)) :
    g.traversal roots within = ⟨(g.search roots within).cyclic, (g.search roots within).order⟩ := by
  obtain ⟨w, -, agrees, found⟩ := exists_visits_search g roots within
  rw [found, agrees.cyclic, agrees.finished, List.reverse_reverse]

/-- So the order of a graph is that of the search from all nodes. -/
theorem topologicalOrder_eq_search (g : Graph) :
    g.topologicalOrder =
      if (g.search (List.range g.size) none).cyclic then .error g.cycles
      else .ok (pathsAt g.entries (g.search (List.range g.size) none).order) := by
  have found : g.fullTraversal = g.traversal (List.range g.size) none := rfl
  rw [topologicalOrder_eq, found, traversal_eq]

/-- And the order of members is that of the search from them that never leaves them. -/
theorem orderWithin_eq_search (g : Graph) (members : List String) :
    let places := g.placesOf members
    g.orderWithin members =
      if (g.search places (some places)).cyclic then none
      else some ((members.filter fun member => !g.contains member) ++
        pathsAt g.entries (g.search places (some places)).order) := by
  intro places
  have found : g.memberTraversal members = g.traversal places (some places) := rfl
  rw [orderWithin_eq, found, traversal_eq]

/-- From any roots in any graph, with or without a restriction to members, the loop of the traversal
ends by itself, in one walk only. It begins the nodes that the recursive search begins, in the same
order and each once, and the traversal has the flag and the order of the search. The order lists
what dependencies lead to from the roots that are nodes, each once. -/
theorem traversal_eq_search (g : Graph) (roots : List Nat) (within : Option (List Nat)) :
    let searched := g.search roots within
    let found := g.traversal roots within
    (∃ w : Walk, found = ⟨w.cyclic, w.finished.reverse⟩ ∧ ∀ course w',
        Walk.Visits (g.successorsTo within) (.start g.size) roots course w' ↔
          course = searched.begun ∧ w' = w) ∧
      found = ⟨searched.cyclic, searched.order⟩ ∧
      searched.begun.Nodup ∧ searched.begun.Perm found.order ∧ found.order.Nodup ∧
      ∀ i, i ∈ found.order ↔
        ∃ r ∈ roots, r < g.size ∧ Relation.ReflTransGen (g.Leads within) r i := by
  intro searched found
  have bounded := bounded_leads g within
  obtain ⟨w, visits, agrees, read⟩ := exists_visits_search g roots within
  have order : found.order = w.finished.reverse := congrArg Digraph.Traversal.order read
  have once : searched.begun.Nodup := (visits.meets (Walk.Marked.start g.size)).nodup
  have listed : searched.begun.Perm found.order := by
    rw [order]
    exact (visits.course_perm bounded).trans (List.reverse_perm _).symm
  refine ⟨⟨w, read, fun course w' => ⟨fun visits' => ?_, ?_⟩⟩, traversal_eq g roots within, once,
    listed, listed.nodup_iff.mp once, fun i => ?_⟩
  · rw [successorsTo_eq] at visits'
    exact visits'.unique visits
  · rintro ⟨rfl, rfl⟩
    rw [successorsTo_eq]
    exact visits
  · rw [order, List.mem_reverse, visits.mem_finished_iff bounded]
    have edges : Digraph.Edge (g.leads within) = g.Leads within := by
      funext i j
      exact propext edge_leads_iff
    rw [edges]

end CommitSplit.Graph
