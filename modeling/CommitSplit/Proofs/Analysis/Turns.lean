import CommitSplit.Proofs.Analysis.Interleaving

/-!
# Enhancing nodes in turn

When every worker takes all of its steps in turn, the workers do what enhancing one node after
another does. No worker begins after a call that raised the flag, so such a call is the last one.
-/

namespace CommitSplit.Assembly

/-- All steps of the work on each place in turn. -/
def turns {size : Nat} (places : List (Fin size)) : List (Fin size) :=
  places.flatMap (List.replicate Task.waiting.stepsLeft)

/-- One node after another. -/
def Schedule.sequential (size : Nat) : Schedule size where
  places := turns (List.finRange size)
  complete i := by
    have there : (List.replicate Task.waiting.stepsLeft i).Sublist (turns (List.finRange size)) :=
      List.sublist_flatten_of_mem (List.mem_map_of_mem (List.mem_finRange i))
    simpa using there.count_le i

variable {parser : SurfaceParser} {kinds : List (String × ChangeKind)} {nodes : List Node}
  {w : Workers nodes.length} {i j : Fin nodes.length} {places : List (Fin nodes.length)}
  {c : Cancellation}

namespace Workers

theorem flag_run_of_stops (up : w.flag.stops = true) :
    (run parser kinds nodes places w).flag = w.flag := by
  induction places generalizing w with
  | nil => rfl
  | cons i places ih =>
      have kept : (step parser kinds nodes w i).flag = w.flag := by
        rw [step]
        split
        · rfl
        · rfl
        · exact Cancellation.after_of_stops up _
        · rfl
        · rfl
      exact (ih (kept.symm ▸ up)).trans kept

theorem tasks_run_of_notMem (absent : i ∉ places) :
    (run parser kinds nodes places w).tasks i = w.tasks i := by
  induction places generalizing w with
  | nil => rfl
  | cons j places ih =>
      rw [List.mem_cons, not_or] at absent
      exact (ih absent.2).trans (tasks_step_of_ne absent.1)

theorem notMem_turns (absent : i ∉ places) : i ∉ turns places := by
  intro there
  obtain ⟨j, hj, repeated⟩ := List.mem_flatMap.mp there
  exact absent (List.eq_of_mem_replicate repeated ▸ hj)

theorem outcomeAt_cons (w : Workers nodes.length) (i : Fin nodes.length)
    (places : List (Fin nodes.length)) :
    w.outcomeAt (i :: places) = (do
      let result ← (w.tasks i).result
      let results ← w.outcomeAt places
      return result :: results) :=
  List.mapM_cons

/-- The workers after all steps of the work on one node. -/
def turn (parser : SurfaceParser) (kinds : List (String × ChangeKind)) (nodes : List Node)
    (w : Workers nodes.length) (i : Fin nodes.length) : Workers nodes.length :=
  if w.flag.stops then w.set i .refused
  else (if isEligible parser kinds (nodes.get i) then w.call parser (nodes.get i).path else w).set i
    (.done (enhancement parser kinds (nodes.get i)))

theorem tasks_turn_of_ne (apart : j ≠ i) :
    (turn parser kinds nodes w i).tasks j = w.tasks j := by
  unfold turn
  split
  · exact tasks_set_of_ne apart _
  · split <;> exact tasks_set_of_ne apart _

theorem run_turns_cons (waiting : w.tasks i = .waiting) :
    run parser kinds nodes (turns (i :: places)) w =
      run parser kinds nodes (turns places) (turn parser kinds nodes w i) := by
  have first : step parser kinds nodes w i =
      w.set i (if w.flag.stops then .refused else .admitted) := by
    rw [step, waiting]
  rw [turns, List.flatMap_cons, run, List.foldl_append]
  refine congrArg (run parser kinds nodes (turns places)) ?_
  rw [Task.stepsLeft, turn]
  change step parser kinds nodes (step parser kinds nodes (step parser kinds nodes w i) i) i = _
  rw [first]
  cases w.flag.stops with
  | true => simp [step]
  | false =>
      rw [List.get_eq_getElem]
      cases eligible : isEligible parser kinds nodes[i.val] <;> simp [step, eligible, enhancement]

/-- A turn does what enhancing the node does. -/
theorem start_enhanceNode_turn (w : Workers nodes.length) (i : Fin nodes.length) :
    (enhanceNode parser kinds (nodes.get i)).start w.flag =
      (((turn parser kinds nodes w i).tasks i).result, (turn parser kinds nodes w i).flag) := by
  rw [start_enhanceNode, turn]
  cases w.flag.stops with
  | true => simp [Task.result]
  | false =>
      rw [List.get_eq_getElem]
      cases isEligible parser kinds nodes[i.val] <;> simp [Task.result, call]

/-- Turns do what enhancing the nodes in order does. -/
theorem start_mapM_enhanceNode (nodup : places.Nodup)
    (waiting : ∀ i ∈ places, w.tasks i = .waiting) :
    (places.mapM fun i => enhanceNode parser kinds (nodes.get i)).start w.flag =
      ((run parser kinds nodes (turns places) w).outcomeAt places,
        (run parser kinds nodes (turns places) w).flag) := by
  induction places generalizing w with
  | nil => rfl
  | cons i places ih =>
      obtain ⟨absent, rest⟩ := List.nodup_cons.mp nodup
      have still (j) (hj : j ∈ places) : (turn parser kinds nodes w i).tasks j = .waiting := by
        rw [tasks_turn_of_ne (ne_of_mem_of_not_mem hj absent)]
        exact waiting j (List.mem_cons_of_mem i hj)
      -- The turns of the others do not touch this task, so its result is the one collected.
      have kept : (run parser kinds nodes (turns places) (turn parser kinds nodes w i)).tasks i =
          (turn parser kinds nodes w i).tasks i :=
        tasks_run_of_notMem (notMem_turns absent)
      rw [List.mapM_cons, Run.start_bind, start_enhanceNode_turn,
        run_turns_cons (waiting i List.mem_cons_self), outcomeAt_cons, kept]
      cases up : w.flag.stops with
      | true =>
          have refused : turn parser kinds nodes w i = w.set i .refused := by rw [turn, if_pos up]
          rw [refused, tasks_set_self, flag_run_of_stops (w := w.set i .refused) up]
          rfl
      | false =>
          have done : (turn parser kinds nodes w i).tasks i =
              .done (enhancement parser kinds (nodes.get i)) := by
            rw [turn, up, if_neg Bool.false_ne_true, tasks_set_self]
          rw [done]
          dsimp only [Task.result]
          rw [Run.start_bind, ih rest still]
          cases outcomeAt _ places <;> rfl

/-! ## The last call -/

/-- Behind a call that asks for cancellation there is no other. -/
def CallsEnd (parser : SurfaceParser) (calls : List String) : Prop :=
  ∀ earlier path later, calls = earlier ++ path :: later →
    (parser.parse path).cancels = true → later = []

theorem callsEnd_append {calls : List String} {path : String}
    (quiet : (calls.any fun path => (parser.parse path).cancels) = false) :
    CallsEnd parser (calls ++ [path]) := by
  intro earlier path' later split_eq cancels
  rcases List.eq_nil_or_concat later with nil | ⟨front, last, rfl⟩
  · exact nil
  · have front_eq : calls = earlier ++ path' :: front := by
      rw [List.concat_eq_append, ← List.cons_append, ← List.append_assoc] at split_eq
      exact (List.append_inj' split_eq rfl).1
    have calm := List.any_eq_false.mp quiet path' (by simp [front_eq])
    exact absurd cancels calm

/-- A turn calls the parser only when no earlier call has asked for cancellation. -/
theorem callsEnd_turn (watched : c.watched = true) (sound : Sound parser kinds nodes c w)
    (ends : CallsEnd parser w.calls) : CallsEnd parser (turn parser kinds nodes w i).calls := by
  unfold turn
  split
  · exact ends
  · rename_i down
    split
    · refine callsEnd_append (Bool.eq_false_iff.mpr fun up => down ?_)
      rw [sound.flag_eq, up]
      exact Cancellation.stops_eq_true_iff.mpr ⟨watched, Bool.or_true _⟩
    · exact ends

theorem callsEnd_run_turns (watched : c.watched = true) (nodup : places.Nodup)
    (waiting : ∀ i ∈ places, w.tasks i = .waiting) (sound : Sound parser kinds nodes c w)
    (ends : CallsEnd parser w.calls) :
    CallsEnd parser (run parser kinds nodes (turns places) w).calls := by
  induction places generalizing w with
  | nil => exact ends
  | cons i places ih =>
      obtain ⟨absent, rest⟩ := List.nodup_cons.mp nodup
      have begins := waiting i List.mem_cons_self
      have sound' : Sound parser kinds nodes c (turn parser kinds nodes w i) := by
        have whole := sound.run (turns [i])
        rw [run_turns_cons begins] at whole
        exact whole
      rw [run_turns_cons begins]
      refine ih rest (fun j hj => ?_) sound' (callsEnd_turn watched sound ends)
      rw [tasks_turn_of_ne (ne_of_mem_of_not_mem hj absent)]
      exact waiting j (List.mem_cons_of_mem i hj)

/-- Of calls one after another only the last asks for cancellation. -/
theorem callsEnd_sequential (watched : c.watched = true) :
    CallsEnd parser ((Schedule.sequential nodes.length).workers parser kinds nodes c).calls :=
  callsEnd_run_turns watched (List.nodup_finRange _) (fun _ _ => rfl) (.start c) (by
    intro earlier path later split_eq
    cases earlier <;> cases split_eq)

end Workers

theorem enhanceInterleaved_sequential : enhanceInterleaved Schedule.sequential = oneByOne := by
  funext parser kinds nodes c
  let w : Workers nodes.length := .start nodes.length c
  have same : (Run.start (List.mapM (fun i => enhanceNode parser kinds nodes[i])
      (List.finRange nodes.length)) w.flag) = _ :=
    Workers.start_mapM_enhanceNode (List.nodup_finRange nodes.length) (fun _ _ => rfl)
  have by_place : oneByOne parser kinds nodes =
      (List.finRange nodes.length).mapM fun i => enhanceNode parser kinds nodes[i] := by
    conv_lhs => rw [oneByOne, ← List.map_getElem_finRange nodes, List.mapM_map]
    rfl
  rw [by_place]
  exact same.symm

end CommitSplit.Assembly
