import CommitSplit.Proofs.Digraph.Traversal

/-!
# The course of a traversal

A run stops when its fuel is used up. A walk itself needs none: it moves until it is outside of all
nodes. Its course lists the nodes that it begins with on the way. None of them is listed twice,
because a node is begun only if it was never met, and it counts as met from then on.

The main statement is that the fuel of `traverse` is never used up: without a bound on its moves a
walk through the same roots ends where `traverse` ends.
-/

namespace CommitSplit.Digraph.Walk

/-- The node that the next move begins, if it begins one. -/
def entering (w : Walk) : List Nat :=
  match w.stack with
  | (_, next :: _) :: _ => if w.mark next = .unvisited then [next] else []
  | _ => []

/-- Moves from one walk to another, with the nodes that they begin in order. -/
inductive Moves (successors : Nat → List Nat) : Walk → List Nat → Walk → Prop
  | refl {w} : Moves successors w [] w
  | head {w v w' course} (first : Move successors w v) (rest : Moves successors v course w') :
      Moves successors w (w.entering ++ course) w'

/-- Walks through roots in turn, with the nodes that they begin in order. From a root that was not
met before, a walk moves until it is outside of all nodes, however long that takes. -/
inductive Visits (successors : Nat → List Nat) : Walk → List Nat → List Nat → Walk → Prop
  | nil {w} : Visits successors w [] [] w
  | pass {w root roots course w'} (met : w.mark root ≠ .unvisited)
      (rest : Visits successors w roots course w') :
      Visits successors w (root :: roots) course w'
  | enter {w root roots inner v course w'} (fresh : w.mark root = .unvisited)
      (moves : Moves successors (w.enter successors root) inner v) (outside : v.stack = [])
      (rest : Visits successors v roots course w') :
      Visits successors w (root :: roots) (root :: (inner ++ course)) w'

variable {size : Nat} {successors : Nat → List Nat} {roots course course' : List Nat}
  {w w' u v v' : Walk}

/-! ## Marks -/

/-- Beginning a node that was never met marks it. -/
theorem mark_enter {node : Nat} (fresh : w.mark node = .unvisited) (i : Nat) :
    (w.enter successors node).mark i = if i = node then .inProgress else w.mark i := by
  have inside : node < w.marks.size := by
    by_contra outside
    rw [mark, Array.getD_eq_getD_getElem?, Array.getElem?_eq_none (by omega)] at fresh
    exact Mark.noConfusion fresh
  exact getD_setIfInBounds inside _ i

/-- A number that is no node counts as done anyway. -/
theorem getD_setIfInBounds_done (marks : Array Mark) (node i : Nat) :
    (marks.setIfInBounds node .done).getD i .done =
      if i = node then .done else marks.getD i .done := by
  by_cases inside : node < marks.size
  · exact getD_setIfInBounds inside _ i
  · rw [Array.setIfInBounds_eq_of_size_le (by omega)]
    split
    · rename_i same
      simp [same, inside]
    · rfl

/-! ## The four moves -/

section

variable {marks : Array Mark} {cyclic : Bool} {finished left : List Nat} {node next : Nat}
  {stack : List (Nat × List Nat)}

theorem entering_of_unvisited (fresh : marks.getD next .done = .unvisited) :
    entering ⟨marks, cyclic, finished, (node, next :: left) :: stack⟩ = [next] :=
  if_pos fresh

theorem entering_of_met (met : marks.getD next .done ≠ .unvisited) :
    entering ⟨marks, cyclic, finished, (node, next :: left) :: stack⟩ = [] :=
  if_neg met

namespace Moves

theorem finish (rest : Moves successors
      ⟨marks.setIfInBounds node .done, cyclic, node :: finished, stack⟩ course w') :
    Moves successors ⟨marks, cyclic, finished, (node, []) :: stack⟩ course w' :=
  .head .finish rest

theorem descend (fresh : marks.getD next .done = .unvisited)
    (rest : Moves successors ⟨marks.setIfInBounds next .inProgress, cyclic, finished,
      (next, successors next) :: (node, left) :: stack⟩ course w') :
    Moves successors ⟨marks, cyclic, finished, (node, next :: left) :: stack⟩
      (next :: course) w' := by
  simpa only [entering_of_unvisited fresh, List.singleton_append] using head (.descend fresh) rest

theorem close (inside : marks.getD next .done = .inProgress)
    (rest : Moves successors ⟨marks, true, finished, (node, left) :: stack⟩ course w') :
    Moves successors ⟨marks, cyclic, finished, (node, next :: left) :: stack⟩ course w' := by
  have met : marks.getD next .done ≠ .unvisited := by simp [inside]
  simpa only [entering_of_met met, List.nil_append] using head (.close inside) rest

theorem skip (known : marks.getD next .done = .done)
    (rest : Moves successors ⟨marks, cyclic, finished, (node, left) :: stack⟩ course w') :
    Moves successors ⟨marks, cyclic, finished, (node, next :: left) :: stack⟩ course w' := by
  have met : marks.getD next .done ≠ .unvisited := by simp [known]
  simpa only [entering_of_met met, List.nil_append] using head (.skip known) rest

end Moves

end

/-! ## Moves end in one way -/

theorem Move.inside (m : Move successors w w') : w.stack ≠ [] := by
  cases m <;> exact List.cons_ne_nil _ _

/-- The step is the only move that there is. -/
theorem Move.eq_step (m : Move successors w w') : w' = w.step successors := by
  cases m with
  | finish => rfl
  | descend fresh => simp only [step, mark, fresh, enter]
  | close inside => simp only [step, mark, inside]
  | skip known => simp only [step, mark, known]

namespace Moves

theorem trans (first : Moves successors w course v) (rest : Moves successors v course' w') :
    Moves successors w (course ++ course') w' := by
  induction first with
  | refl => exact rest
  | head m _ ih =>
      rw [List.append_assoc]
      exact .head m (ih rest)

/-- A run with enough fuel follows the moves to their end. -/
theorem run_eq (moves : Moves successors w course w') (outside : w'.stack = []) {fuel : Nat}
    (ended : (run successors fuel w).stack = []) : run successors fuel w = w' := by
  induction moves generalizing fuel with
  | refl => exact run_of_outside outside fuel
  | head m _ ih =>
      cases fuel with
      | zero => exact absurd ended m.inside
      | succ fuel =>
          rw [run_of_inside m.inside] at ended ⊢
          rw [← m.eq_step] at ended ⊢
          exact ih outside ended

/-- Outside of all nodes there are no moves, and before there is one each time. -/
theorem unique (moves : Moves successors w course v) (outside : v.stack = [])
    (moves' : Moves successors w course' v') (outside' : v'.stack = []) :
    course = course' ∧ v = v' := by
  induction moves generalizing course' with
  | refl =>
      cases moves' with
      | refl => exact ⟨rfl, rfl⟩
      | head m' _ => exact absurd outside m'.inside
  | head m _ ih =>
      cases moves' with
      | refl => exact absurd outside' m.inside
      | head m' rest' =>
          obtain rfl := m.eq_step.trans m'.eq_step.symm
          obtain ⟨rfl, rfl⟩ := ih outside rest'
          exact ⟨rfl, rfl⟩

theorem marked (marked : Marked size w) (moves : Moves successors w course w') :
    Marked size w' := by
  induction moves with
  | refl => exact marked
  | head m _ ih => exact ih (marked.move m)

end Moves

theorem Visits.unique (visits : Visits successors w roots course v)
    (visits' : Visits successors w roots course' v') : course = course' ∧ v = v' := by
  induction visits generalizing course' with
  | nil =>
      cases visits'
      exact ⟨rfl, rfl⟩
  | pass met _ ih =>
      cases visits' with
      | pass _ rest' => exact ih rest'
      | enter fresh => exact absurd fresh met
  | enter fresh moves outside _ ih =>
      cases visits' with
      | pass met => exact absurd fresh met
      | enter _ moves' outside' rest' =>
          obtain ⟨rfl, rfl⟩ := moves.unique outside moves' outside'
          obtain ⟨rfl, rfl⟩ := ih rest'
          exact ⟨rfl, rfl⟩

/-! ## What is begun is met -/

/-- Between two moments just the nodes of the course were met for the first time, one after the
other. -/
structure Meets (course : List Nat) (w w' : Walk) : Prop where
  nodup : course.Nodup
  mem_iff : ∀ i, i ∈ course ↔ w.mark i = .unvisited ∧ w'.mark i ≠ .unvisited
  kept : ∀ i, w.mark i ≠ .unvisited → w'.mark i ≠ .unvisited

namespace Meets

theorem of_marks_eq (same : w'.marks = w.marks) : Meets [] w w' where
  nodup := List.nodup_nil
  mem_iff i := by simp [mark, same]
  kept i met := by rwa [mark, same]

theorem trans (first : Meets course w v) (rest : Meets course' v u) :
    Meets (course ++ course') w u where
  nodup := by
    refine List.nodup_append'.mpr ⟨first.nodup, rest.nodup, fun i before behind => ?_⟩
    exact ((first.mem_iff i).mp before).2 ((rest.mem_iff i).mp behind).1
  mem_iff i := by
    rw [List.mem_append, first.mem_iff, rest.mem_iff]
    have before := first.kept i
    have behind := rest.kept i
    tauto
  kept i met := rest.kept i (first.kept i met)

/-- Beginning a node meets this node and no other one. -/
theorem enter {node : Nat} (fresh : w.mark node = .unvisited) :
    Meets [node] w (w.enter successors node) := by
  refine ⟨List.nodup_singleton node, fun i => ?_, fun i met => ?_⟩
  · rw [mark_enter fresh, List.mem_singleton]
    split
    · rename_i same
      simp [same, fresh]
    · rename_i other
      simp [other]
  · rw [mark_enter fresh]
    split
    · exact Mark.noConfusion
    · exact met

theorem move (marked : Marked size w) (m : Move successors w w') : Meets w.entering w w' := by
  cases m with
  | @finish marks cyclic finished node stack =>
      -- The node that is finished was in progress, so it was met before.
      have unchanged : ∀ i,
          mark ⟨marks.setIfInBounds node .done, cyclic, node :: finished, stack⟩ i = .unvisited ↔
            mark ⟨marks, cyclic, finished, (node, []) :: stack⟩ i = .unvisited := by
        intro i
        rw [marked.finish.unvisited_iff, marked.unvisited_iff]
        simp only [trail, List.map_cons, List.mem_cons]
        tauto
      refine ⟨List.nodup_nil, fun i => ?_, fun i met => mt (unchanged i).mp met⟩
      rw [ne_eq, unchanged]
      simp [entering]
  | @descend marks cyclic finished node next rest stack fresh =>
      have entered : Meets [next] ⟨marks, cyclic, finished, (node, rest) :: stack⟩
          (Walk.enter successors ⟨marks, cyclic, finished, (node, rest) :: stack⟩ next) :=
        enter fresh
      rw [entering_of_unvisited fresh]
      exact ⟨entered.nodup, entered.mem_iff, entered.kept⟩
  | close inside =>
      rw [entering_of_met (by simp [inside])]
      exact of_marks_eq rfl
  | skip known =>
      rw [entering_of_met (by simp [known])]
      exact of_marks_eq rfl

end Meets

theorem Moves.meets (marked : Marked size w) (moves : Moves successors w course w') :
    Meets course w w' := by
  induction moves with
  | refl => exact .of_marks_eq rfl
  | head m _ ih => exact (Meets.move marked m).trans (ih (marked.move m))

theorem Visits.meets (marked : Marked size w) (visits : Visits successors w roots course w') :
    Meets course w w' := by
  induction visits with
  | nil => exact .of_marks_eq rfl
  | pass _ _ ih => exact ih marked
  | @enter w root roots inner v course w' fresh moves _ _ ih =>
      have entered : Marked size (w.enter successors root) := marked.enter fresh
      exact (Meets.enter fresh).trans ((moves.meets entered).trans (ih (moves.marked entered)))

/-! ## The end of a traversal -/

namespace Visits

/-- Visits to roots have enough fuel, and roots that are no nodes are passed. -/
theorem foldl_eq (bounded : Bounded size successors) (h : Between size successors roots w)
    {visited : List Nat} (known : ∀ r ∈ visited, r < size → r ∈ roots)
    (visits : Visits successors w visited course w') :
    visited.foldl (visit successors (effort size successors)) w = w' ∧
      Between size successors roots w' := by
  induction visits with
  | nil => exact ⟨rfl, h⟩
  | @pass w root visited course w' met _ ih =>
      have passed : visit successors (effort size successors) w root = w := if_neg met
      rw [List.foldl_cons, passed]
      exact ih h fun r there => known r (List.mem_cons_of_mem _ there)
  | @enter w root visited inner v course w' fresh moves outside _ ih =>
      have hsize : root < size := (h.sound.marked.unvisited_iff.mp fresh).1
      obtain ⟨between, -⟩ := between_visit bounded h (known root List.mem_cons_self hsize) hsize
      have entered : visit successors (effort size successors) w root =
          run successors (effort size successors) (w.enter successors root) := if_pos fresh
      have same : visit successors (effort size successors) w root = v := by
        rw [entered] at between ⊢
        exact moves.run_eq outside between.outside
      rw [List.foldl_cons, same]
      exact ih (same ▸ between) fun r there => known r (List.mem_cons_of_mem _ there)

theorem filter_lt (marked : Marked size w) (visits : Visits successors w roots course w') :
    Visits successors w (roots.filter (· < size)) course w' := by
  induction visits with
  | nil => exact .nil
  | @pass w root roots course w' met _ ih =>
      rw [List.filter_cons]
      split
      · exact .pass met (ih marked)
      · exact ih marked
  | enter fresh moves outside _ ih =>
      have hsize := (marked.unvisited_iff.mp fresh).1
      rw [List.filter_cons_of_pos (by simpa using hsize)]
      exact .enter fresh moves outside (ih (moves.marked (marked.enter fresh)))

variable (bounded : Bounded size successors)
  (visits : Visits successors (start size) roots course w)

include bounded visits

theorem full_eq : full size successors roots = w ∧
    Between size successors (roots.filter (· < size)) w :=
  visits.foldl_eq bounded ⟨Sound.start size successors _, rfl⟩ fun r there hr =>
    List.mem_filter.mpr ⟨there, by simpa using hr⟩

/-- What is finished in the end can be reached from a root that is a node. -/
theorem mem_finished_iff {i : Nat} : i ∈ w.finished ↔
    ∃ r ∈ roots, r < size ∧ Relation.ReflTransGen (Edge successors) r i := by
  have nodes : ∀ r ∈ roots.filter (· < size), r < size := by simp
  obtain ⟨same, -⟩ := (visits.filter_lt (Marked.start size)).full_eq bounded
  rw [← same, mem_finished_full bounded nodes, Reached]
  simp [and_assoc]

/-- Whatever is begun is finished in the end. -/
theorem course_perm : course.Perm w.finished := by
  obtain ⟨-, between⟩ := visits.full_eq bounded
  have marked := between.sound.marked
  have meets := visits.meets (Marked.start size)
  rw [List.perm_ext_iff_of_nodup meets.nodup marked.nodup_finished]
  intro i
  rw [meets.mem_iff, (Marked.start size).unvisited_iff]
  constructor
  · rintro ⟨⟨hi, -⟩, met⟩
    exact (between.mem_finished_iff hi).mpr met
  · intro there
    have hi := marked.finished_lt i there
    exact ⟨⟨hi, List.not_mem_nil, List.not_mem_nil⟩, (between.mem_finished_iff hi).mp there⟩

end Visits

end CommitSplit.Digraph.Walk
