import CommitSplit.Proofs.Digraph.Walk
import Mathlib.Data.List.Chain

/-!
# Depth-first traversal: what it lists and when it sees a cycle

Every invariant below is kept by each move of a walk. The nodes in progress are a path of the
digraph, so a successor among them closes a cycle; and as long as no cycle was seen, a node is
finished after all of its successors.

The main statements are about `traverse`: its order holds exactly what can be reached from the
roots, each node once, it puts successors first if no cycle was seen, and a cycle is seen exactly
when there is one within reach.
-/

namespace CommitSplit.Digraph

variable {size : Nat} {successors : Nat → List Nat} {roots : List Nat}

/-- A node that can be reached from one of the roots. -/
def Reached (successors : Nat → List Nat) (roots : List Nat) (i : Nat) : Prop :=
  ∃ r ∈ roots, Relation.ReflTransGen (Edge successors) r i

theorem Reached.tail {i j : Nat} (h : Reached successors roots i) (edge : Edge successors i j) :
    Reached successors roots j := by
  obtain ⟨r, hr, walk⟩ := h
  exact ⟨r, hr, walk.tail edge⟩

/-- Roots with successors among themselves lead to nothing else. -/
theorem reached_iff_of_closed {i : Nat}
    (closed : ∀ i ∈ roots, ∀ j, Edge successors i j → j ∈ roots) :
    Reached successors roots i ↔ i ∈ roots := by
  constructor
  · rintro ⟨r, hr, walk⟩
    induction walk with
    | refl => exact hr
    | tail _ last ih => exact closed _ ih _ last
  · exact fun hi => ⟨i, hi, .refl⟩

/-! ## Settled lists -/

/-- Every node of the list has all of its successors behind it. -/
def Settled (successors : Nat → List Nat) : List Nat → Prop
  | [] => True
  | node :: nodes => (∀ j, Edge successors node j → j ∈ nodes) ∧ Settled successors nodes

namespace Settled

variable {nodes : List Nat} {i j : Nat}

theorem mem_of_reach (h : Settled successors nodes) (hi : i ∈ nodes)
    (walk : Relation.ReflTransGen (Edge successors) i j) : j ∈ nodes := by
  induction nodes generalizing i with
  | nil => cases hi
  | cons node nodes ih =>
      rcases List.mem_cons.mp hi with rfl | hi
      · rcases walk.cases_head with rfl | ⟨k, first, walk⟩
        · exact List.mem_cons_self
        · exact List.mem_cons_of_mem _ (ih h.2 (h.1 k first) walk)
      · exact List.mem_cons_of_mem _ (ih h.2 hi walk)

theorem acyclic (h : Settled successors nodes) (nodup : nodes.Nodup) (hi : i ∈ nodes) :
    ¬ Relation.TransGen (Edge successors) i i := by
  induction nodes with
  | nil => cases hi
  | cons node nodes ih =>
      obtain ⟨fresh, nodup⟩ := List.nodup_cons.mp nodup
      rcases List.mem_cons.mp hi with rfl | hi
      · intro cycle
        obtain ⟨k, first, walk⟩ := Relation.TransGen.head'_iff.mp cycle
        exact fresh (h.2.mem_of_reach (h.1 k first) walk)
      · exact ih h.2 nodup hi

/-- A successor stands behind its node. -/
theorem pair_sublist (h : Settled successors nodes) (hi : i ∈ nodes) (edge : Edge successors i j) :
    [i, j].Sublist nodes := by
  induction nodes with
  | nil => cases hi
  | cons node nodes ih =>
      rcases List.mem_cons.mp hi with rfl | hi
      · exact (List.singleton_sublist.mpr (h.1 j edge)).cons_cons _
      · exact (ih h.2 hi).cons _

end Settled

/-- The nodes in progress could be finished one after the other, innermost first: each has looked
only at nodes that are finished by then. -/
def Pending (successors : Nat → List Nat) : List Nat → List (Nat × List Nat) → Prop
  | _, [] => True
  | finished, (node, rest) :: stack =>
    (∀ j, Edge successors node j → j ∈ rest ∨ j ∈ finished) ∧
      Pending successors (node :: finished) stack

theorem Pending.mono {finished finished' : List Nat} {stack : List (Nat × List Nat)}
    (h : Pending successors finished stack) (more : finished ⊆ finished') :
    Pending successors finished' stack := by
  induction stack generalizing finished finished' with
  | nil => trivial
  | cons frame stack ih =>
      refine ⟨fun j edge => (h.1 j edge).imp_right fun hj => more hj, ih h.2 ?_⟩
      exact List.cons_subset_cons _ more

namespace Walk

/-! ## Paths -/

/-- The nodes in progress are a path from a root, whatever was met can be reached, and a cycle that
was seen is there. -/
structure Rooted (successors : Nat → List Nat) (roots : List Nat) (w : Walk) : Prop where
  edges : ∀ frame ∈ w.stack, ∀ j ∈ frame.2, Edge successors frame.1 j
  chain : w.trail.IsChain fun i j => Edge successors j i
  reached : ∀ i, i ∈ w.trail ∨ i ∈ w.finished → Reached successors roots i
  cyclic : w.cyclic = true →
    ∃ i, Reached successors roots i ∧ Relation.TransGen (Edge successors) i i

namespace Rooted

variable {w w' : Walk}

/-- The innermost node in progress can be reached from every other. -/
theorem reach_of_chain {node i : Nat} {nodes : List Nat}
    (chain : (node :: nodes).IsChain fun i j => Edge successors j i) (hi : i ∈ node :: nodes) :
    Relation.ReflTransGen (Edge successors) i node := by
  induction nodes generalizing node with
  | nil => rw [List.mem_singleton.mp hi]
  | cons parent nodes ih =>
      rcases List.mem_cons.mp hi with rfl | hi
      · exact .refl
      · obtain ⟨edge, chain⟩ := List.isChain_cons_cons.mp chain
        exact (ih chain hi).tail edge

/-- The node in front has looked at one more successor. -/
theorem advance {marks cyclic finished node next rest stack}
    (h : Rooted successors roots ⟨marks, cyclic, finished, (node, next :: rest) :: stack⟩) :
    Rooted successors roots ⟨marks, cyclic, finished, (node, rest) :: stack⟩ := by
  refine ⟨?_, h.chain, h.reached, h.cyclic⟩
  intro frame member j hj
  rcases List.mem_cons.mp member with rfl | member
  · exact h.edges _ List.mem_cons_self j (List.mem_cons_of_mem _ hj)
  · exact h.edges frame (List.mem_cons_of_mem _ member) j hj

theorem move (marked : Marked size w) (m : Move successors w w')
    (h : Rooted successors roots w) : Rooted successors roots w' := by
  cases m with
  | @finish marks cyclic finished node stack =>
      refine ⟨?_, h.chain.tail, ?_, h.cyclic⟩
      · intro frame member
        exact h.edges frame (List.mem_cons_of_mem _ member)
      · intro i hi
        apply h.reached
        rcases hi with hi | hi
        · exact Or.inl (List.mem_cons_of_mem _ hi)
        · rcases List.mem_cons.mp hi with rfl | hi
          · exact Or.inl List.mem_cons_self
          · exact Or.inr hi
  | @descend marks cyclic finished node next rest stack fresh =>
      have edge : Edge successors node next :=
        h.edges _ List.mem_cons_self next List.mem_cons_self
      have front : Reached successors roots node := h.reached _ (Or.inl List.mem_cons_self)
      have shorter := h.advance
      refine ⟨?_, List.isChain_cons_cons.mpr ⟨edge, shorter.chain⟩, ?_, h.cyclic⟩
      · intro frame member
        rcases List.mem_cons.mp member with rfl | member
        · exact fun j hj => hj
        · exact shorter.edges frame member
      · rintro i (hi | hi)
        · rcases List.mem_cons.mp hi with rfl | hi
          · exact front.tail edge
          · exact shorter.reached i (Or.inl hi)
        · exact shorter.reached i (Or.inr hi)
  | @close marks cyclic finished node next rest stack inside =>
      have edge : Edge successors node next :=
        h.edges _ List.mem_cons_self next List.mem_cons_self
      have front : Reached successors roots node := h.reached _ (Or.inl List.mem_cons_self)
      have met : next ∈ trail ⟨marks, cyclic, finished, (node, next :: rest) :: stack⟩ :=
        (marked.inProgress_iff next).mp inside
      have back := reach_of_chain h.chain met
      exact ⟨h.advance.edges, h.chain, h.reached,
        fun _ => ⟨node, front, Relation.TransGen.head' edge back⟩⟩
  | skip => exact h.advance

end Rooted

/-! ## Everything within reach is met -/

/-- The successors that a node has looked at were met, and a finished node has looked at all. -/
structure Exhaustive (successors : Nat → List Nat) (w : Walk) : Prop where
  looked : ∀ frame ∈ w.stack, ∀ j, Edge successors frame.1 j →
    j ∈ frame.2 ∨ w.mark j ≠ .unvisited
  closed : ∀ i ∈ w.finished, ∀ j, Edge successors i j → w.mark j ≠ .unvisited

namespace Exhaustive

variable {w w' : Walk}

/-- A node drops the successor that it looks at once this one is met. -/
theorem advance {node next : Nat} {rest : List Nat} (met : w.mark next ≠ .unvisited)
    (looked : ∀ j, Edge successors node j → j ∈ next :: rest ∨ w.mark j ≠ .unvisited) :
    ∀ j, Edge successors node j → j ∈ rest ∨ w.mark j ≠ .unvisited := by
  intro j edge
  rcases looked j edge with hj | hj
  · rcases List.mem_cons.mp hj with rfl | hj
    · exact Or.inr met
    · exact Or.inl hj
  · exact Or.inr hj

theorem move (marked : Marked size w) (m : Move successors w w') (h : Exhaustive successors w) :
    Exhaustive successors w' := by
  have met : ∀ {i}, w.mark i ≠ .unvisited → w'.mark i ≠ .unvisited := m.mark_ne_unvisited
  -- A frame that is not in front keeps its successors, and marks are not taken back.
  have older : ∀ frame ∈ w.stack, ∀ j, Edge successors frame.1 j →
      j ∈ frame.2 ∨ w'.mark j ≠ .unvisited :=
    fun frame member j edge => (h.looked frame member j edge).imp_right met
  have closed : ∀ i ∈ w.finished, ∀ j, Edge successors i j → w'.mark j ≠ .unvisited :=
    fun i hi j edge => met (h.closed i hi j edge)
  cases m with
  | finish =>
      obtain ⟨front, others⟩ := List.forall_mem_cons.mp older
      refine ⟨others, List.forall_mem_cons.mpr ⟨fun j edge => ?_, closed⟩⟩
      simpa using front j edge
  | @descend marks cyclic finished node next rest stack fresh =>
      obtain ⟨front, others⟩ := List.forall_mem_cons.mp older
      have hnext : next < marks.size := by
        rw [marked.size_eq]
        exact (marked.unvisited_iff.mp fresh).1
      refine ⟨List.forall_mem_cons.mpr ⟨fun j edge => Or.inl edge,
        List.forall_mem_cons.mpr ⟨advance ?_ front, others⟩⟩, closed⟩
      rw [mark, getD_setIfInBounds hnext, if_pos rfl]
      decide
  | close inside =>
      obtain ⟨front, others⟩ := List.forall_mem_cons.mp older
      refine ⟨List.forall_mem_cons.mpr ⟨advance ?_ front, others⟩, closed⟩
      simp only [mark, inside]
      decide
  | skip known =>
      obtain ⟨front, others⟩ := List.forall_mem_cons.mp older
      refine ⟨List.forall_mem_cons.mpr ⟨advance ?_ front, others⟩, closed⟩
      simp only [mark, known]
      decide

end Exhaustive

/-! ## Successors first -/

/-- As long as no cycle was seen, the finished nodes are settled and those in progress can
follow. -/
def Orderly (successors : Nat → List Nat) (w : Walk) : Prop :=
  w.cyclic = false → Settled successors w.finished ∧ Pending successors w.finished w.stack

theorem Orderly.move (bounded : Bounded size successors) {w w' : Walk} (marked : Marked size w)
    (rooted : Rooted successors roots w) (m : Move successors w w') (h : Orderly successors w) :
    Orderly successors w' := by
  intro acyclic
  cases m with
  | finish =>
      obtain ⟨settled, front, pending⟩ := h acyclic
      exact ⟨⟨fun j edge => by simpa using front j edge, settled⟩, pending⟩
  | @descend marks cyclic finished node next rest stack fresh =>
      obtain ⟨settled, front, pending⟩ := h acyclic
      refine ⟨settled, fun j edge => Or.inl edge, ?_, ?_⟩
      · intro j edge
        rcases front j edge with hj | hj
        · rcases List.mem_cons.mp hj with rfl | hj
          · exact Or.inr List.mem_cons_self
          · exact Or.inl hj
        · exact Or.inr (List.mem_cons_of_mem _ hj)
      · exact pending.mono (List.cons_subset_cons _ (List.subset_cons_self _ _))
  | close => cases acyclic
  | @skip marks cyclic finished node next rest stack known =>
      obtain ⟨settled, front, pending⟩ := h acyclic
      refine ⟨settled, ?_, pending⟩
      intro j edge
      rcases front j edge with hj | hj
      · rcases List.mem_cons.mp hj with rfl | hj
        · rcases (marked.done_iff j).mp known with hf | above
          · exact Or.inr hf
          · exact absurd (bounded edge) (by omega)
        · exact Or.inl hj
      · exact Or.inr hj

/-! ## Walks between two roots -/

/-- What holds of a walk at every moment. -/
structure Sound (size : Nat) (successors : Nat → List Nat) (roots : List Nat) (w : Walk) :
    Prop where
  marked : Marked size w
  rooted : Rooted successors roots w
  exhaustive : Exhaustive successors w
  orderly : Orderly successors w

namespace Sound

variable {w w' : Walk}

theorem start (size : Nat) (successors : Nat → List Nat) (roots : List Nat) :
    Sound size successors roots (start size) where
  marked := Marked.start size
  rooted := ⟨by simp [Walk.start], by simp [Walk.start, trail], by simp [Walk.start, trail],
    by simp [Walk.start]⟩
  exhaustive := ⟨by simp [Walk.start], by simp [Walk.start]⟩
  orderly := fun _ => ⟨trivial, trivial⟩

theorem move (bounded : Bounded size successors) (m : Move successors w w')
    (h : Sound size successors roots w) : Sound size successors roots w' where
  marked := h.marked.move m
  rooted := h.rooted.move h.marked m
  exhaustive := h.exhaustive.move h.marked m
  orderly := h.orderly.move bounded h.marked h.rooted m

/-- A root can be entered when no node is in progress. -/
theorem enter (h : Sound size successors roots w) (outside : w.stack = []) {root : Nat}
    (hroot : root ∈ roots) (fresh : w.mark root = .unvisited) :
    Sound size successors roots (w.enter successors root) := by
  obtain ⟨marks, cyclic, finished, stack⟩ := w
  obtain rfl : stack = [] := outside
  refine ⟨h.marked.enter fresh, ⟨?_, ?_, ?_, h.rooted.cyclic⟩, ⟨?_, ?_⟩, ?_⟩
  · intro frame member j hj
    obtain rfl := List.mem_singleton.mp member
    exact hj
  · exact List.isChain_singleton _
  · rintro i (hi | hi)
    · obtain rfl := List.mem_singleton.mp hi
      exact ⟨i, hroot, .refl⟩
    · exact h.rooted.reached i (Or.inr hi)
  · intro frame member j edge
    obtain rfl := List.mem_singleton.mp member
    exact Or.inl edge
  · intro i hi j edge
    exact set_ne_unvisited (by decide) (h.exhaustive.closed i hi j edge)
  · intro acyclic
    exact ⟨(h.orderly acyclic).1, fun j edge => Or.inl edge, trivial⟩

end Sound

/-- A walk that is sound and outside of all nodes. -/
structure Between (size : Nat) (successors : Nat → List Nat) (roots : List Nat) (w : Walk) :
    Prop where
  sound : Sound size successors roots w
  outside : w.stack = []

namespace Between

variable {w : Walk}

/-- Between two roots whatever was met is finished. -/
theorem mem_finished_iff (h : Between size successors roots w) {i : Nat} (hi : i < size) :
    i ∈ w.finished ↔ w.mark i ≠ .unvisited := by
  rw [ne_eq, h.sound.marked.unvisited_iff, trail, h.outside]
  simp [hi]

/-- What is finished is closed under successors. -/
theorem mem_finished_of_reach (bounded : Bounded size successors)
    (h : Between size successors roots w) {i j : Nat} (hi : i ∈ w.finished)
    (walk : Relation.ReflTransGen (Edge successors) i j) : j ∈ w.finished := by
  induction walk with
  | refl => exact hi
  | tail _ edge ih =>
      rw [h.mem_finished_iff (bounded edge)]
      exact h.sound.exhaustive.closed _ ih _ edge

theorem enough (h : Between size successors roots w) :
    workLeft size successors w ≤ effort size successors := by
  rw [workLeft, h.outside, effort_eq_sum]
  exact openWork_le _ _ _

end Between

/-- Visiting a root finishes it, and whatever was finished before stays so. -/
theorem between_visit (bounded : Bounded size successors) {w : Walk}
    (h : Between size successors roots w) {root : Nat} (hroot : root ∈ roots)
    (hsize : root < size) :
    Between size successors roots (visit successors (effort size successors) w root) ∧
      root :: w.finished ⊆ (visit successors (effort size successors) w root).finished := by
  rw [visit]
  split
  · rename_i fresh
    have entered := h.sound.enter h.outside hroot fresh
    have paid := workLeft_enter successors h.sound.marked fresh
    have kept : ∀ P : Walk → Prop, (∀ w w', Move successors w w' → P w → P w') →
        P (w.enter successors root) →
        P (run successors (effort size successors) (w.enter successors root)) :=
      fun _ keeps => run_keeps keeps _
    have done : Between size successors roots
        (run successors (effort size successors) (w.enter successors root)) :=
      ⟨kept (Sound size successors roots) (fun _ _ m => Sound.move bounded m) entered,
        stack_run _ entered.marked (by rw [paid]; exact h.enough)⟩
    refine ⟨done, List.cons_subset.mpr ⟨?_, ?_⟩⟩
    · rw [done.mem_finished_iff hsize]
      apply kept (fun v => v.mark root ≠ .unvisited) (fun _ _ m => m.mark_ne_unvisited)
      rw [(entered.marked.inProgress_iff root).mpr List.mem_cons_self]
      decide
    · exact kept (fun v => w.finished ⊆ v.finished)
        (fun _ _ m before => List.Subset.trans before m.finished_suffix.subset) (List.Subset.refl _)
  · rename_i met
    exact ⟨h, List.cons_subset.mpr ⟨(h.mem_finished_iff hsize).mpr met, List.Subset.refl _⟩⟩

/-- After visits to some roots these are finished. -/
theorem between_visits (bounded : Bounded size successors) {w : Walk}
    (h : Between size successors roots w) (visited : List Nat) (known : visited ⊆ roots)
    (nodes : ∀ r ∈ roots, r < size) :
    Between size successors roots
        (visited.foldl (visit successors (effort size successors)) w) ∧
      visited ++ w.finished ⊆
        (visited.foldl (visit successors (effort size successors)) w).finished := by
  induction visited generalizing w with
  | nil => exact ⟨h, List.Subset.refl _⟩
  | cons root others ih =>
      obtain ⟨hroot, known⟩ := List.cons_subset.mp known
      obtain ⟨between, more⟩ := between_visit bounded h hroot (nodes root hroot)
      obtain ⟨last, all⟩ := ih between known
      refine ⟨last, fun i hi => all ?_⟩
      rcases List.mem_append.mp hi with hi | hi
      · rcases List.mem_cons.mp hi with rfl | hi
        · exact List.mem_append_right _ (more List.mem_cons_self)
        · exact List.mem_append_left _ hi
      · exact List.mem_append_right _ (more (List.mem_cons_of_mem _ hi))

/-- The walk that `traverse` makes. -/
def full (size : Nat) (successors : Nat → List Nat) (roots : List Nat) : Walk :=
  roots.foldl (visit successors (effort size successors)) (start size)

theorem between_full (bounded : Bounded size successors) (nodes : ∀ r ∈ roots, r < size) :
    Between size successors roots (full size successors roots) ∧
      roots ⊆ (full size successors roots).finished := by
  obtain ⟨between, more⟩ := between_visits bounded ⟨Sound.start size successors roots, rfl⟩ roots
    (List.Subset.refl _) nodes
  exact ⟨between, fun r hr => more (List.mem_append_left _ hr)⟩

theorem mem_finished_full (bounded : Bounded size successors) (nodes : ∀ r ∈ roots, r < size)
    {i : Nat} : i ∈ (full size successors roots).finished ↔ Reached successors roots i := by
  obtain ⟨between, all⟩ := between_full bounded nodes
  constructor
  · intro hi
    exact between.sound.rooted.reached i (Or.inr hi)
  · rintro ⟨r, hr, walk⟩
    exact between.mem_finished_of_reach bounded (all hr) walk

end Walk

/-! ## The traversal -/

theorem traverse_eq (size : Nat) (successors : Nat → List Nat) (roots : List Nat) :
    traverse size successors roots =
      ⟨(Walk.full size successors roots).cyclic,
        (Walk.full size successors roots).finished.reverse⟩ := rfl

/-- The order lists what can be reached from the roots. -/
theorem mem_order_traverse (bounded : Bounded size successors) (nodes : ∀ r ∈ roots, r < size)
    {i : Nat} : i ∈ (traverse size successors roots).order ↔ Reached successors roots i := by
  rw [traverse_eq, List.mem_reverse, Walk.mem_finished_full bounded nodes]

theorem nodup_order_traverse (bounded : Bounded size successors)
    (nodes : ∀ r ∈ roots, r < size) : (traverse size successors roots).order.Nodup := by
  rw [traverse_eq, List.nodup_reverse]
  exact (Walk.between_full bounded nodes).1.sound.marked.nodup_finished

/-- A cycle is seen exactly when there is one within reach of the roots. -/
theorem cyclic_traverse_iff (bounded : Bounded size successors) (nodes : ∀ r ∈ roots, r < size) :
    (traverse size successors roots).cyclic = true ↔
      ∃ i, Reached successors roots i ∧ Relation.TransGen (Edge successors) i i := by
  have sound := (Walk.between_full bounded nodes).1.sound
  constructor
  · intro seen
    exact sound.rooted.cyclic seen
  · rintro ⟨i, reached, cycle⟩
    by_contra unseen
    obtain ⟨settled, -⟩ := sound.orderly (by simpa [traverse_eq] using unseen)
    exact settled.acyclic sound.marked.nodup_finished
      ((Walk.mem_finished_full bounded nodes).mpr reached) cycle

/-- Without a cycle every successor is listed in front of its node. -/
theorem pair_sublist_order_traverse (bounded : Bounded size successors)
    (nodes : ∀ r ∈ roots, r < size) (acyclic : (traverse size successors roots).cyclic = false)
    {i j : Nat} (reached : Reached successors roots i) (edge : Edge successors i j) :
    [j, i].Sublist (traverse size successors roots).order := by
  obtain ⟨settled, -⟩ := (Walk.between_full bounded nodes).1.sound.orderly acyclic
  have pair := settled.pair_sublist ((Walk.mem_finished_full bounded nodes).mpr reached) edge
  simpa [traverse_eq] using List.reverse_sublist.mpr pair

end CommitSplit.Digraph
