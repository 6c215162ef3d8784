import CommitSplit.Proofs.Digraph.Reachability
import Mathlib.Data.List.Nodup

/-!
# Moves of a depth-first walk

A step of a walk is one of four moves, and what each of them keeps is kept by a run. The marks tell
the nodes in progress from the finished ones. A move pays for one unit of the work that remains, so
a run with fuel for all of it ends outside of all nodes.
-/

namespace CommitSplit.Digraph

variable {size : Nat} {successors : Nat → List Nat}

namespace Walk

/-- The nodes in progress, from the innermost to the outermost. -/
def trail (w : Walk) : List Nat :=
  w.stack.map Prod.fst

/-! ## Moves -/

/-- What a step can do to a walk that is not at its end. -/
inductive Move (successors : Nat → List Nat) : Walk → Walk → Prop
  /-- The innermost node has no successors left to look at. -/
  | finish {marks cyclic finished node stack} :
      Move successors ⟨marks, cyclic, finished, (node, []) :: stack⟩
        ⟨marks.setIfInBounds node .done, cyclic, node :: finished, stack⟩
  /-- The next successor was never met. -/
  | descend {marks cyclic finished node next rest stack}
      (fresh : marks.getD next .done = .unvisited) :
      Move successors ⟨marks, cyclic, finished, (node, next :: rest) :: stack⟩
        ⟨marks.setIfInBounds next .inProgress, cyclic, finished,
          (next, successors next) :: (node, rest) :: stack⟩
  /-- The next successor is in progress: the nodes between are a cycle. -/
  | close {marks cyclic finished node next rest stack}
      (inside : marks.getD next .done = .inProgress) :
      Move successors ⟨marks, cyclic, finished, (node, next :: rest) :: stack⟩
        ⟨marks, true, finished, (node, rest) :: stack⟩
  /-- The next successor is finished. -/
  | skip {marks cyclic finished node next rest stack}
      (known : marks.getD next .done = .done) :
      Move successors ⟨marks, cyclic, finished, (node, next :: rest) :: stack⟩
        ⟨marks, cyclic, finished, (node, rest) :: stack⟩

theorem move_step {w : Walk} (h : w.stack ≠ []) : Move successors w (w.step successors) := by
  obtain ⟨marks, cyclic, finished, stack⟩ := w
  match stack with
  | [] => exact absurd rfl h
  | (node, []) :: stack => exact .finish
  | (node, next :: rest) :: stack =>
    cases hm : marks.getD next .done with
    | unvisited => simpa only [step, mark, hm, enter] using Move.descend hm
    | inProgress => simpa only [step, mark, hm] using Move.close hm
    | done => simpa only [step, mark, hm] using Move.skip hm

theorem run_of_outside {w : Walk} (outside : w.stack = []) (fuel : Nat) :
    run successors fuel w = w := by
  cases fuel with
  | zero => rfl
  | succ fuel => rw [run, outside, List.isEmpty_nil, if_pos rfl]

theorem run_of_inside {w : Walk} (inside : w.stack ≠ []) (fuel : Nat) :
    run successors (fuel + 1) w = run successors fuel (w.step successors) := by
  rw [run, if_neg (by simpa using inside)]

/-- What every move keeps is kept by a run. -/
theorem run_keeps {P : Walk → Prop} (keeps : ∀ w w', Move successors w w' → P w → P w')
    (fuel : Nat) {w : Walk} (h : P w) : P (run successors fuel w) := by
  induction fuel generalizing w with
  | zero => exact h
  | succ fuel ih =>
      rw [run]
      split
      · exact h
      · rename_i inside
        exact ih (keeps _ _ (move_step (by simpa using inside)) h)

/-- The nodes that are finished later stand in front. -/
theorem Move.finished_suffix {w w' : Walk} (m : Move successors w w') :
    w.finished <:+ w'.finished := by
  cases m with
  | finish => exact List.suffix_cons _ _
  | descend => exact List.suffix_rfl
  | close => exact List.suffix_rfl
  | skip => exact List.suffix_rfl

/-! ## Marks -/

/-- The marks tell which nodes are in progress and which are finished, and no node is listed
twice. -/
structure Marked (size : Nat) (w : Walk) : Prop where
  size_eq : w.marks.size = size
  inProgress_iff : ∀ i, w.mark i = .inProgress ↔ i ∈ w.trail
  done_iff : ∀ i, w.mark i = .done ↔ i ∈ w.finished ∨ size ≤ i
  finished_lt : ∀ i ∈ w.finished, i < size
  nodup_trail : w.trail.Nodup
  nodup_finished : w.finished.Nodup

theorem getD_setIfInBounds {marks : Array Mark} {node : Nat} (hnode : node < marks.size)
    (m : Mark) (i : Nat) :
    (marks.setIfInBounds node m).getD i .done = if i = node then m else marks.getD i .done := by
  rcases eq_or_ne i node with rfl | hne
  · simp [hnode]
  · simp [hne, hne.symm]

namespace Marked

variable {w w' : Walk} {i : Nat}

/-- A node that was never met is a node, and neither in progress nor finished. -/
theorem lt_of_ne_done (h : Marked size w) (hi : w.mark i ≠ .done) : i < size := by
  by_contra outside
  exact hi ((h.done_iff i).mpr (Or.inr (by omega)))

theorem unvisited_iff (h : Marked size w) :
    w.mark i = .unvisited ↔ i < size ∧ i ∉ w.trail ∧ i ∉ w.finished := by
  rw [← h.inProgress_iff]
  constructor
  · intro fresh
    have hi := h.lt_of_ne_done (by rw [fresh]; decide)
    refine ⟨hi, by rw [fresh]; decide, fun hf => ?_⟩
    rw [(h.done_iff i).mpr (Or.inl hf)] at fresh
    exact absurd fresh (by decide)
  · rintro ⟨hi, outside, unfinished⟩
    cases hm : w.mark i with
    | unvisited => rfl
    | inProgress => exact absurd hm outside
    | done =>
        rcases (h.done_iff i).mp hm with hf | above
        · exact absurd hf unfinished
        · exact absurd hi (by omega)

theorem trail_lt (h : Marked size w) (hi : i ∈ w.trail) : i < size := by
  apply h.lt_of_ne_done
  rw [(h.inProgress_iff i).mpr hi]
  decide

theorem not_mem_finished (h : Marked size w) (hi : i ∈ w.trail) : i ∉ w.finished := by
  intro hf
  have inside := (h.inProgress_iff i).mpr hi
  rw [(h.done_iff i).mpr (Or.inl hf)] at inside
  exact absurd inside (by decide)

theorem start (size : Nat) : Marked size (start size) where
  size_eq := by simp [Walk.start]
  inProgress_iff i := by
    by_cases hi : i < size <;> simp [Walk.start, mark, trail, hi]
  done_iff i := by
    rcases Nat.lt_or_ge i size with hi | hi
    · simp [Walk.start, mark, hi]
    · simp [Walk.start, mark, hi]
  finished_lt := by simp [Walk.start]
  nodup_trail := by simp [Walk.start, trail]
  nodup_finished := by simp [Walk.start]

/-- Only the stack of a walk in progress counts here, not the successors it has left. -/
theorem congr (h : Marked size w) (marks : w'.marks = w.marks) (finished : w'.finished = w.finished)
    (trail : w'.trail = w.trail) : Marked size w' where
  size_eq := by rw [marks, h.size_eq]
  inProgress_iff i := by rw [trail, ← h.inProgress_iff, mark, mark, marks]
  done_iff i := by rw [finished, ← h.done_iff, mark, mark, marks]
  finished_lt := by rw [finished]; exact h.finished_lt
  nodup_trail := by rw [trail]; exact h.nodup_trail
  nodup_finished := by rw [finished]; exact h.nodup_finished

theorem enter (h : Marked size w) {node : Nat} (fresh : w.mark node = .unvisited) :
    Marked size (w.enter successors node) := by
  obtain ⟨hnode, outside, unfinished⟩ := h.unvisited_iff.mp fresh
  have marks : ∀ i, (w.enter successors node).mark i =
      if i = node then .inProgress else w.mark i :=
    getD_setIfInBounds (by rw [h.size_eq]; exact hnode) _
  have trail : (w.enter successors node).trail = node :: w.trail := rfl
  refine ⟨by simpa [Walk.enter] using h.size_eq, ?_, ?_, h.finished_lt, ?_, h.nodup_finished⟩
  · intro i
    rw [marks, trail, List.mem_cons, ← h.inProgress_iff]
    split <;> simp [*]
  · intro i
    rw [marks]
    split
    · rename_i this
      subst this
      simpa [Walk.enter, unfinished] using hnode
    · exact h.done_iff i
  · rw [trail]
    exact h.nodup_trail.cons outside

theorem finish {marks cyclic finished node rest stack}
    (h : Marked size ⟨marks, cyclic, finished, (node, rest) :: stack⟩) :
    Marked size ⟨marks.setIfInBounds node .done, cyclic, node :: finished, stack⟩ := by
  have member : node ∈ trail ⟨marks, cyclic, finished, (node, rest) :: stack⟩ :=
    List.mem_cons_self
  have hnode : node < size := h.trail_lt member
  obtain ⟨left, nodup⟩ := List.nodup_cons.mp h.nodup_trail
  have marks' : ∀ i, mark ⟨marks.setIfInBounds node .done, cyclic, node :: finished, stack⟩ i =
      if i = node then .done else mark ⟨marks, cyclic, finished, (node, rest) :: stack⟩ i :=
    getD_setIfInBounds (by rw [h.size_eq]; exact hnode) _
  refine ⟨by simpa using h.size_eq, ?_, ?_, ?_, nodup, h.nodup_finished.cons
    (h.not_mem_finished member)⟩
  · intro i
    rw [marks']
    split
    · rename_i this
      subst this
      simpa [trail] using left
    · rename_i other
      rw [h.inProgress_iff]
      simp [trail, other]
  · intro i
    rw [marks']
    split
    · simp [*]
    · rename_i other
      rw [h.done_iff]
      simp [other]
  · intro i hi
    rcases List.mem_cons.mp hi with rfl | hi
    · exact hnode
    · exact h.finished_lt i hi

theorem move (m : Move successors w w') (h : Marked size w) : Marked size w' := by
  cases m with
  | finish => exact h.finish
  | @descend marks cyclic finished node next rest stack fresh =>
      have shorter : Marked size ⟨marks, cyclic, finished, (node, rest) :: stack⟩ :=
        h.congr rfl rfl rfl
      exact shorter.enter fresh
  | close => exact h.congr rfl rfl rfl
  | skip => exact h.congr rfl rfl rfl

end Marked

/-- Setting marks never makes a node look as if it had not been met. -/
theorem set_ne_unvisited {marks : Array Mark} {node i : Nat} {m : Mark} (hm : m ≠ .unvisited)
    (met : marks.getD i .done ≠ .unvisited) :
    (marks.setIfInBounds node m).getD i .done ≠ .unvisited := by
  by_cases hnode : node < marks.size
  · rw [getD_setIfInBounds hnode]
    split
    · exact hm
    · exact met
  · rwa [Array.setIfInBounds_eq_of_size_le (by omega)]

theorem Move.mark_ne_unvisited {w w' : Walk} (m : Move successors w w') {i : Nat}
    (met : w.mark i ≠ .unvisited) : w'.mark i ≠ .unvisited := by
  cases m with
  | finish => exact set_ne_unvisited (by decide) met
  | descend => exact set_ne_unvisited (by decide) met
  | close => exact met
  | skip => exact met

/-! ## The end of a walk -/

/-- The work that is left: a unit for each node and each successor that was not looked at. -/
def workLeft (size : Nat) (successors : Nat → List Nat) (w : Walk) : Nat :=
  openWork size (fun i => w.mark i == .unvisited) (fun i => (successors i).length + 1) +
    (w.stack.map fun frame => frame.2.length + 1).sum

/-- Entering a node moves its work to the stack. -/
theorem workLeft_enter (successors : Nat → List Nat) {w : Walk} (marked : Marked size w)
    {node : Nat} (fresh : w.mark node = .unvisited) :
    workLeft size successors (w.enter successors node) = workLeft size successors w := by
  have hnode : node < size := (marked.unvisited_iff.mp fresh).1
  have paid : openWork size (fun i => w.mark i == .unvisited) (fun i => (successors i).length + 1) =
      (successors node).length + 1 +
        openWork size (fun i => (w.enter successors node).mark i == .unvisited)
          fun i => (successors i).length + 1 := by
    apply openWork_close hnode (by simpa using fresh)
    intro i _
    have set : (w.enter successors node).mark i = if i = node then .inProgress else w.mark i :=
      getD_setIfInBounds (by rw [marked.size_eq]; exact hnode) _ _
    rw [set]
    split <;> simp [*]
  rw [workLeft, workLeft, paid]
  simp only [enter, List.map_cons, List.sum_cons]
  omega

theorem Move.workLeft {w w' : Walk} (marked : Marked size w) (m : Move successors w w') :
    workLeft size successors w = workLeft size successors w' + 1 := by
  cases m with
  | @finish marks cyclic finished node stack =>
      have unchanged : ∀ i,
          (mark ⟨marks.setIfInBounds node .done, cyclic, node :: finished, stack⟩ i ==
            .unvisited) =
          (mark ⟨marks, cyclic, finished, (node, []) :: stack⟩ i == .unvisited) := by
        intro i
        rw [Bool.eq_iff_iff, beq_iff_eq, beq_iff_eq, marked.finish.unvisited_iff,
          marked.unvisited_iff]
        simp only [trail, List.map_cons, List.mem_cons]
        tauto
      simp only [Walk.workLeft, unchanged, List.map_cons, List.sum_cons, List.length_nil]
      omega
  | @descend marks cyclic finished node next rest stack fresh =>
      have shorter : Marked size ⟨marks, cyclic, finished, (node, rest) :: stack⟩ :=
        marked.congr rfl rfl rfl
      have entered := workLeft_enter successors shorter fresh
      change _ = Walk.workLeft size successors
        (enter successors ⟨marks, cyclic, finished, (node, rest) :: stack⟩ next) + 1
      rw [entered]
      simp only [Walk.workLeft, mark, List.map_cons, List.sum_cons, List.length_cons]
      omega
  | close =>
      simp only [Walk.workLeft, mark, List.map_cons, List.sum_cons, List.length_cons]
      omega
  | skip =>
      simp only [Walk.workLeft, mark, List.map_cons, List.sum_cons, List.length_cons]
      omega

/-- A run with fuel for the work that is left ends outside of all nodes. -/
theorem stack_run (fuel : Nat) {w : Walk} (marked : Marked size w)
    (enough : workLeft size successors w ≤ fuel) : (run successors fuel w).stack = [] := by
  induction fuel generalizing w with
  | zero =>
      have empty : (w.stack.map fun frame => frame.2.length + 1).sum = 0 := by
        rw [workLeft] at enough
        omega
      cases hs : w.stack with
      | nil => simpa [run] using hs
      | cons frame stack => simp [hs] at empty
  | succ fuel ih =>
      rw [run]
      split
      · rename_i outside
        simpa using outside
      · rename_i inside
        have m : Move successors w (w.step successors) := move_step (by simpa using inside)
        have paid := m.workLeft marked
        exact ih (marked.move m) (by omega)

end Walk

end CommitSplit.Digraph
