import CommitSplit.Proofs.Analysis.Enhancement
import Mathlib.Data.List.FinRange
import Mathlib.Data.List.Forall2
import Mathlib.Logic.Function.Basic

/-!
# Enhancing nodes at the same time

Workers enhance all nodes at once. The work on one node looks at the flag, decides whether the
surface is asked for and asks for it; between any two of these steps the other workers may go on,
and every call may raise the flag that all of them share. Results are collected by the places of
the nodes. Work that is given up because another worker was refused counts as refused later.

Workers are compared with the enhancement of one node after another by what both do to the flag.
When a worker was refused some call has raised the flag, and when none was refused every surface
was asked for. So both leave the same flag, and where it does not stop the run both end with the
same nodes.
-/

namespace CommitSplit.Assembly

/-- How far the work on a node is. -/
inductive Task
  | waiting
  /-- The flag was down. -/
  | admitted
  /-- The surface is to be asked for. -/
  | asking
  /-- The flag was up. -/
  | refused
  | done (result : Node × Option SkippedEnhancement)

namespace Task

/-- The number of steps after which a task is settled. -/
def stepsLeft : Task → Nat
  | waiting => 3
  | admitted => 2
  | asking => 1
  | refused => 0
  | done _ => 0

/-- What the work on a node ends with. Only work that is done has a result. -/
def result : Task → Except Failure (Node × Option SkippedEnhancement)
  | done result => .ok result
  | _ => .error .cancelled

end Task

/-- The work on all nodes with the flag that it shares, and the paths that the parser was called
with so far. -/
structure Workers (size : Nat) where
  tasks : Fin size → Task
  flag : Cancellation
  calls : List String

namespace Workers

variable {size : Nat}

def start (size : Nat) (c : Cancellation) : Workers size :=
  ⟨fun _ => .waiting, c, []⟩

/-- Changes the task of one place. -/
def set (w : Workers size) (i : Fin size) (task : Task) : Workers size :=
  { w with tasks := Function.update w.tasks i task }

/-- Asks for the surface at a path. -/
def call (w : Workers size) (parser : SurfaceParser) (path : String) : Workers size :=
  { w with
    flag := w.flag.after (parser.parse path).cancels
    calls := w.calls ++ [path] }

/-- What the tasks at some places end with, in the order of the places. -/
def outcomeAt (w : Workers size) (places : List (Fin size)) :
    Except Failure (List (Node × Option SkippedEnhancement)) :=
  places.mapM fun i => (w.tasks i).result

/-- What all tasks end with. -/
def outcome (w : Workers size) : Except Failure (List (Node × Option SkippedEnhancement)) :=
  w.outcomeAt (List.finRange size)

/-- The next step of the work on one node. -/
def step (parser : SurfaceParser) (kinds : List (String × ChangeKind)) (nodes : List Node)
    (w : Workers nodes.length) (i : Fin nodes.length) : Workers nodes.length :=
  match w.tasks i with
  | .waiting => w.set i (if w.flag.stops then .refused else .admitted)
  | .admitted =>
    w.set i (if isEligible parser kinds nodes[i] then .asking else .done (nodes[i], none))
  | .asking =>
    (w.call parser nodes[i].path).set i
      (.done (nodes[i].enhanceOrKeep (parser.parse nodes[i].path).answer))
  | .refused | .done _ => w

/-- Takes a step of the work on each of the places in turn. -/
def run (parser : SurfaceParser) (kinds : List (String × ChangeKind)) (nodes : List Node)
    (places : List (Fin nodes.length)) (w : Workers nodes.length) : Workers nodes.length :=
  places.foldl (step parser kinds nodes) w

end Workers

/-- An order for the steps of all workers, in which each of them may take all of its steps. -/
structure Schedule (size : Nat) where
  places : List (Fin size)
  complete : ∀ i, Task.waiting.stepsLeft ≤ places.count i

/-- The workers after all steps of a schedule. -/
def Schedule.workers (parser : SurfaceParser) (kinds : List (String × ChangeKind))
    (nodes : List Node) (schedule : Schedule nodes.length) (c : Cancellation) :
    Workers nodes.length :=
  Workers.run parser kinds nodes schedule.places (.start nodes.length c)

/-- The stage that enhances the nodes under a schedule for their number. -/
def enhanceInterleaved (schedule : ∀ size, Schedule size) : Stage :=
  fun parser kinds nodes c =>
    let w := (schedule nodes.length).workers parser kinds nodes c
    (w.outcome, w.flag)

variable {parser : SurfaceParser} {kinds : List (String × ChangeKind)} {nodes : List Node}
  {w : Workers nodes.length} {i j : Fin nodes.length} {places : List (Fin nodes.length)}
  {c : Cancellation}

namespace Workers

@[simp] theorem tasks_set_self (w : Workers nodes.length) (i : Fin nodes.length) (task : Task) :
    (w.set i task).tasks i = task :=
  Function.update_self ..

@[simp] theorem flag_set (w : Workers nodes.length) (i : Fin nodes.length) (task : Task) :
    (w.set i task).flag = w.flag := rfl

@[simp] theorem set_set (w : Workers nodes.length) (i : Fin nodes.length) (first second : Task) :
    (w.set i first).set i second = w.set i second := by
  simp [set]

@[simp] theorem call_set (w : Workers nodes.length) (i : Fin nodes.length) (task : Task)
    (path : String) : (w.set i task).call parser path = (w.call parser path).set i task := rfl

theorem tasks_set_of_ne (apart : j ≠ i) (task : Task) : (w.set i task).tasks j = w.tasks j :=
  Function.update_of_ne apart ..

theorem tasks_step_of_ne (apart : j ≠ i) :
    (step parser kinds nodes w i).tasks j = w.tasks j := by
  unfold step
  split <;> first | rfl | exact tasks_set_of_ne apart _

/-! ## Schedules are long enough -/

theorem stepsLeft_step (w : Workers nodes.length) (i j : Fin nodes.length) :
    ((step parser kinds nodes w i).tasks j).stepsLeft ≤
      (w.tasks j).stepsLeft - if i = j then 1 else 0 := by
  by_cases same : i = j
  · subst same
    rw [if_pos rfl, step]
    split <;> rename_i task
    · rw [task, tasks_set_self]
      split <;> decide
    · rw [task, tasks_set_self]
      split <;> simp [Task.stepsLeft]
    · simp [task, Task.stepsLeft]
    · simp [task, Task.stepsLeft]
    · simp [task, Task.stepsLeft]
  · rw [if_neg same, tasks_step_of_ne (Ne.symm same), Nat.sub_zero]

theorem stepsLeft_run (places : List (Fin nodes.length)) (w : Workers nodes.length)
    (j : Fin nodes.length) :
    ((run parser kinds nodes places w).tasks j).stepsLeft ≤
      (w.tasks j).stepsLeft - places.count j := by
  induction places generalizing w with
  | nil => exact le_rfl
  | cons i places ih =>
      have first := @stepsLeft_step parser kinds nodes w i j
      have rest := ih (step parser kinds nodes w i)
      rw [List.count_cons]
      simp only [beq_iff_eq]
      change ((run parser kinds nodes places (step parser kinds nodes w i)).tasks j).stepsLeft ≤ _
      omega

/-- Under a schedule every worker is refused or done. -/
theorem stepsLeft_workers (schedule : Schedule nodes.length) (c : Cancellation)
    (i : Fin nodes.length) :
    ((schedule.workers parser kinds nodes c).tasks i).stepsLeft = 0 := by
  have bound : ((schedule.workers parser kinds nodes c).tasks i).stepsLeft ≤
      Task.waiting.stepsLeft - schedule.places.count i :=
    stepsLeft_run schedule.places (start nodes.length c) i
  have enough := schedule.complete i
  omega

/-! ## What holds between any two steps -/

/-- What is known about the work on a node from how far it is. -/
inductive Fits (parser : SurfaceParser) (kinds : List (String × ChangeKind)) (node : Node)
    (flag : Cancellation) (calls : List String) : Task → Prop
  | waiting : Fits parser kinds node flag calls .waiting
  | admitted : Fits parser kinds node flag calls .admitted
  | asking : isEligible parser kinds node = true → Fits parser kinds node flag calls .asking
  | refused : flag.stops = true → Fits parser kinds node flag calls .refused
  | done : (isEligible parser kinds node = true → node.path ∈ calls) →
      Fits parser kinds node flag calls (.done (enhancement parser kinds node))

theorem Fits.after {node : Node} {flag : Cancellation} {calls : List String} {task : Task}
    (h : Fits parser kinds node flag calls task) (cancels : Bool) (path : String) :
    Fits parser kinds node (flag.after cancels) (calls ++ [path]) task := by
  cases h with
  | waiting => exact .waiting
  | admitted => exact .admitted
  | asking eligible => exact .asking eligible
  | refused up => exact .refused (by rwa [Cancellation.after_of_stops up])
  | done called => exact .done fun eligible => List.mem_append_left _ (called eligible)

/-- The flag is up only if it was up before or a call raised it, and only eligible nodes are asked
for. -/
structure Sound (parser : SurfaceParser) (kinds : List (String × ChangeKind)) (nodes : List Node)
    (c : Cancellation) (w : Workers nodes.length) : Prop where
  flag_eq : w.flag = c.after (w.calls.any fun path => (parser.parse path).cancels)
  exists_of_mem_calls : ∀ path ∈ w.calls,
    ∃ node ∈ nodes, isEligible parser kinds node = true ∧ node.path = path
  fits : ∀ i, Fits parser kinds nodes[i] w.flag w.calls (w.tasks i)

namespace Sound

theorem start (c : Cancellation) : Sound parser kinds nodes c (start nodes.length c) where
  flag_eq := (Cancellation.after_false c).symm
  exists_of_mem_calls _ h := nomatch h
  fits _ := .waiting

protected theorem set {task : Task} (h : Sound parser kinds nodes c w)
    (fit : Fits parser kinds nodes[i] w.flag w.calls task) :
    Sound parser kinds nodes c (w.set i task) where
  flag_eq := h.flag_eq
  exists_of_mem_calls := h.exists_of_mem_calls
  fits j := by
    by_cases same : j = i
    · subst same
      rwa [tasks_set_self]
    · rw [tasks_set_of_ne same]
      exact h.fits j

/-- A call for the surface of an eligible node. -/
protected theorem call (h : Sound parser kinds nodes c w)
    (eligible : isEligible parser kinds nodes[i] = true) :
    Sound parser kinds nodes c (w.call parser nodes[i].path) where
  flag_eq := by
    rw [Workers.call, h.flag_eq]
    simp
  exists_of_mem_calls path there := by
    rcases List.mem_append.mp there with there | there
    · exact h.exists_of_mem_calls path there
    · rw [List.mem_singleton] at there
      exact ⟨nodes[i], List.getElem_mem _, eligible, there.symm⟩
  fits j := (h.fits j).after ..

protected theorem step (h : Sound parser kinds nodes c w) (i : Fin nodes.length) :
    Sound parser kinds nodes c (step parser kinds nodes w i) := by
  have fit := h.fits i
  rw [Workers.step]
  split <;> rename_i task
  · refine h.set ?_
    split
    · exact .refused ‹_›
    · exact .admitted
  · refine h.set ?_
    split
    · exact .asking ‹_›
    · rename_i ineligible
      have kept : enhancement parser kinds nodes[i] = (nodes[i], none) := if_neg ineligible
      rw [← kept]
      exact .done fun eligible => absurd eligible ineligible
  · rw [task] at fit
    cases fit with
    | asking eligible =>
        have asked : enhancement parser kinds nodes[i] =
            nodes[i].enhanceOrKeep (parser.parse nodes[i].path).answer := if_pos eligible
        rw [← asked]
        have called : nodes[i].path ∈ (w.call parser nodes[i].path).calls :=
          List.mem_append_right _ (List.mem_singleton_self _)
        exact (h.call eligible).set (.done fun _ => called)
  · exact h
  · exact h

protected theorem run (places : List (Fin nodes.length)) (h : Sound parser kinds nodes c w) :
    Sound parser kinds nodes c (run parser kinds nodes places w) := by
  induction places generalizing w with
  | nil => exact h
  | cons i places ih => exact ih (h.step i)

theorem anyCancels_of_calls (h : Sound parser kinds nodes c w)
    (up : (w.calls.any fun path => (parser.parse path).cancels) = true) :
    anyCancels (some parser) kinds nodes = true := by
  obtain ⟨path, there, cancels⟩ := List.any_eq_true.mp up
  obtain ⟨node, hnode, eligible, rfl⟩ := h.exists_of_mem_calls path there
  exact List.any_eq_true.mpr ⟨node, hnode, by rw [eligible, cancels]; rfl⟩

/-- When a worker was refused, the calls that were not made change nothing about the flag. -/
theorem flag_eq_of_stops (h : Sound parser kinds nodes c w) (up : w.flag.stops = true) :
    w.flag = c.after (anyCancels (some parser) kinds nodes) := by
  have covered : (w.calls.any (fun path => (parser.parse path).cancels) ||
      anyCancels (some parser) kinds nodes) = anyCancels (some parser) kinds nodes := by
    rw [Bool.or_eq_right_iff_imp]
    exact h.anyCancels_of_calls
  rw [← covered, ← Cancellation.after_after, ← h.flag_eq, Cancellation.after_of_stops up]

end Sound

/-! ## What all workers end with -/

theorem eq_cancelled_of_result {task : Task} {failure : Failure}
    (failed : task.result = .error failure) : failure = .cancelled := by
  cases task <;> cases failed <;> rfl

/-- One worker that was refused is enough. -/
theorem outcomeAt_of_refused (there : i ∈ places) (refused : w.tasks i = .refused) :
    w.outcomeAt places = .error .cancelled := by
  rcases ended : w.outcomeAt places with failure | results
  · obtain ⟨j, -, failed⟩ := Attempt.exists_of_mapM_eq_error ended
    rw [eq_cancelled_of_result failed]
  · obtain ⟨result, passed⟩ := Attempt.exists_of_mapM_eq_ok ended there
    rw [refused] at passed
    cases passed

namespace Sound

/-- Work that is settled was refused or has enhanced its node. -/
theorem refused_or_done (h : Sound parser kinds nodes c w) (settled : (w.tasks i).stepsLeft = 0) :
    w.tasks i = .refused ∧ w.flag.stops = true ∨
      w.tasks i = .done (enhancement parser kinds nodes[i]) ∧
        (isEligible parser kinds nodes[i] = true → nodes[i].path ∈ w.calls) := by
  have fit := h.fits i
  generalize w.tasks i = task at fit settled
  cases fit with
  | waiting => cases settled
  | admitted => cases settled
  | asking _ => cases settled
  | refused up => exact .inl ⟨rfl, up⟩
  | done called => exact .inr ⟨rfl, called⟩

/-- Workers of which none was refused have enhanced all nodes and made all calls. -/
theorem outcome_of_done (h : Sound parser kinds nodes c w)
    (done : ∀ i, w.tasks i = .done (enhancement parser kinds nodes[i]) ∧
      (isEligible parser kinds nodes[i] = true → nodes[i].path ∈ w.calls)) :
    w.outcome = .ok (enhancements (some parser) kinds nodes) ∧
      w.flag = c.after (anyCancels (some parser) kinds nodes) := by
  constructor
  · have by_place : enhancements (some parser) kinds nodes =
        (List.finRange nodes.length).map fun i => enhancement parser kinds nodes[i] := by
      conv_lhs => rw [enhancements, ← List.map_getElem_finRange nodes, List.map_map]
      rfl
    rw [outcome, outcomeAt, Attempt.mapM_eq_ok_iff, by_place, List.forall₂_map_right_iff,
      List.forall₂_same]
    intro i _
    rw [(done i).1]
    rfl
  · rw [h.flag_eq]
    congr 1
    rw [Bool.eq_iff_iff]
    refine ⟨h.anyCancels_of_calls, fun some_cancels => ?_⟩
    obtain ⟨node, hnode, asked⟩ := List.any_eq_true.mp some_cancels
    rw [Bool.and_eq_true] at asked
    obtain ⟨i, ilt, rfl⟩ := List.mem_iff_getElem.mp hnode
    exact List.any_eq_true.mpr ⟨_, (done ⟨i, ilt⟩).2 asked.1, asked.2⟩

/-- Workers that are settled have enhanced all nodes or were stopped, and their flag does not depend
on the order of the steps. -/
theorem outcome_of_settled (h : Sound parser kinds nodes c w)
    (settled : ∀ i, (w.tasks i).stepsLeft = 0) :
    let c' := c.after (anyCancels (some parser) kinds nodes)
    w.flag = c' ∧ (w.outcome = .ok (enhancements (some parser) kinds nodes) ∨
      c'.stops = true ∧ w.outcome = .error .cancelled) := by
  intro c'
  -- With a worker refused, calls are missing, but the flag is up and they could not change it.
  by_cases refused : ∃ i, w.tasks i = .refused ∧ w.flag.stops = true
  · obtain ⟨i, refused, up⟩ := refused
    have flag_eq : w.flag = c' := h.flag_eq_of_stops up
    exact ⟨flag_eq, .inr ⟨flag_eq ▸ up, outcomeAt_of_refused (List.mem_finRange i) refused⟩⟩
  · have done (i) := (h.refused_or_done (settled i)).resolve_left fun h => refused ⟨i, h⟩
    obtain ⟨outcome_eq, flag_eq⟩ := h.outcome_of_done done
    exact ⟨flag_eq, .inl outcome_eq⟩

end Sound

theorem sound_workers (schedule : Schedule nodes.length) (c : Cancellation) :
    Sound parser kinds nodes c (schedule.workers parser kinds nodes c) :=
  (Sound.start c).run _

end Workers

/-- Under every schedule the workers enhance all nodes or are stopped. -/
theorem Stage.sound_enhanceInterleaved (schedule : ∀ size, Schedule size) :
    Stage.Sound (enhanceInterleaved schedule) := by
  intro parser kinds nodes c c'
  have sound : Workers.Sound parser kinds nodes c
      ((schedule nodes.length).workers parser kinds nodes c) :=
    Workers.sound_workers (schedule nodes.length) c
  obtain ⟨flag_eq, passed | ⟨stopped, failed⟩⟩ :=
    sound.outcome_of_settled (Workers.stepsLeft_workers (schedule nodes.length) c)
  · exact .inl (Prod.ext passed flag_eq)
  · exact .inr ⟨stopped, Prod.ext failed flag_eq⟩

/-- Under every schedule the nodes, the graph and the warnings of an assembly are those of enhancing
one node after another, and so are its failure and the flag that it leaves. -/
theorem assembleWith_enhanceInterleaved (schedule : ∀ size, Schedule size) :
    (∀ parser kinds nodes,
      (do
        let enhanced ← enhanceInterleaved schedule parser kinds nodes
        Run.checkpoint
        return enhanced) =
      (do
        let enhanced ← nodes.mapM (enhanceNode parser kinds)
        Run.checkpoint
        return enhanced)) ∧
    ∀ source parser changes enhance,
      assembleWith (enhanceInterleaved schedule) source parser changes enhance =
        assemble source parser changes enhance := by
  have sound := Stage.sound_enhanceInterleaved schedule
  constructor
  · intro parser kinds nodes
    rw [(sound parser kinds nodes).bind_checkpoint pure]
    exact ((Stage.sound_oneByOne parser kinds nodes).bind_checkpoint pure).symm
  · exact sound.assembleWith_eq

end CommitSplit.Assembly
