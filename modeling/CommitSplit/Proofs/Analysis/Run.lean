import CommitSplit.Analysis.Run

/-!
# Inverting runs

A run that ends with a value went through all its stages, each from the flag that the one before
left. A checkpoint lets the flag pass unless it stops the run. A run that fails does so in one of
its stages, so what a run may fail with is found stage by stage.
-/

namespace CommitSplit

/-- Whether a checkpoint ends the run. -/
def Cancellation.stops (c : Cancellation) : Bool :=
  c.watched && c.raised

/-- The flag behind a call. -/
def Cancellation.after (c : Cancellation) (cancels : Bool) : Cancellation :=
  { c with raised := c.raised || cancels }

namespace Cancellation

variable {c : Cancellation}

@[simp] theorem after_false (c : Cancellation) : c.after false = c := by
  simp [after]

@[simp] theorem after_after (c : Cancellation) (first second : Bool) :
    (c.after first).after second = c.after (first || second) := by
  simp [after, Bool.or_assoc]

@[simp] theorem raised_after (c : Cancellation) (cancels : Bool) :
    (c.after cancels).raised = (c.raised || cancels) := rfl

@[simp] theorem watched_after (c : Cancellation) (cancels : Bool) :
    (c.after cancels).watched = c.watched := rfl

theorem stops_eq_true_iff : c.stops = true ↔ c.watched = true ∧ c.raised = true := by
  simp [stops]

/-- A flag that is up stays as it is. -/
theorem after_of_raised (up : c.raised = true) (cancels : Bool) : c.after cancels = c := by
  rw [after, up, Bool.true_or, ← up]

/-- What stops a run early stops it later as well. -/
theorem after_of_stops (stopped : c.stops = true) (cancels : Bool) : c.after cancels = c :=
  after_of_raised (stops_eq_true_iff.mp stopped).2 cancels

end Cancellation

namespace Run

variable {α β : Type} {a : α} {b : β} {c c' : Cancellation}

@[simp] theorem start_pure (a : α) (c : Cancellation) :
    (pure a : Run α).start c = (.ok a, c) := rfl

@[simp] theorem start_throw (failure : Failure) (c : Cancellation) :
    (throw failure : Run α).start c = (.error failure, c) := rfl

theorem start_bind (run : Run α) (f : α → Run β) (c : Cancellation) :
    (run >>= f).start c =
      match run.start c with
      | (.ok a, c') => (f a).start c'
      | (.error failure, c') => (.error failure, c') := by
  change ((ExceptT.run run >>= ExceptT.bindCont f) : StateM Cancellation _).run c = _
  rw [StateT.run_bind]
  change (match (run.start c) with | (r, c') => (ExceptT.bindCont f r).run c') = _
  rcases run.start c with ⟨_ | _, c'⟩ <;> rfl

/-- A run of two stages ends with a value when both do. -/
theorem start_bind_eq_ok_iff {run : Run α} {f : α → Run β} :
    (run >>= f).start c = (.ok b, c') ↔
      ∃ a middle, run.start c = (.ok a, middle) ∧ (f a).start middle = (.ok b, c') := by
  rw [start_bind]
  rcases run.start c with ⟨_ | a, middle⟩
  · exact ⟨nofun, nofun⟩
  · exact ⟨fun h => ⟨a, middle, rfl, h⟩, by rintro ⟨_, _, ⟨⟩, h⟩; exact h⟩

@[simp] theorem start_checkpoint (c : Cancellation) :
    checkpoint.start c = (if c.stops then .error .cancelled else .ok (), c) := by
  obtain ⟨watched, raised⟩ := c
  cases watched <;> cases raised <;> rfl

theorem start_checkpoint_eq_ok_iff {u : Unit} :
    checkpoint.start c = (.ok u, c') ↔ c.stops = false ∧ c = c' := by
  rw [start_checkpoint]
  cases c.stops <;> simp

@[simp] theorem start_consult (outcome : Outcome α) (c : Cancellation) :
    (consult outcome).start c = (.ok outcome.answer, c.after outcome.cancels) := rfl

/-- Raises the flag on a condition. -/
def raise (cancels : Bool) : Run Unit :=
  modify fun c => c.after cancels

@[simp] theorem start_raise (cancels : Bool) (c : Cancellation) :
    (raise cancels).start c = (.ok (), c.after cancels) := rfl

@[simp] theorem start_lift (result : Except Failure α) (c : Cancellation) :
    (lift result).start c = (result, c) := by
  cases result <;> rfl

/-- Runs that end in the same way from every flag are the same. -/
theorem ext {run run' : Run α} (h : ∀ c, run.start c = run'.start c) : run = run' :=
  funext h

/-! ## Failures -/

/-- Whatever the flag is, a run can only fail with what is allowed. -/
def FailsOnly (allowed : Failure → Prop) (run : Run α) : Prop :=
  ∀ c failure c', run.start c = (.error failure, c') → allowed failure

namespace FailsOnly

variable {allowed : Failure → Prop}

protected theorem pure (a : α) : FailsOnly allowed (pure a) := by
  intro c failure c' failed
  rw [start_pure] at failed
  cases failed

protected theorem mono {more : Failure → Prop} {run : Run α} (h : FailsOnly allowed run)
    (le : ∀ failure, allowed failure → more failure) : FailsOnly more run :=
  fun c failure c' failed => le failure (h c failure c' failed)

/-- A later stage is only met with a value that the stages before it give. -/
protected theorem bind {run : Run α} {f : α → Run β} (first : FailsOnly allowed run)
    (rest : ∀ a c c', run.start c = (.ok a, c') → FailsOnly allowed (f a)) :
    FailsOnly allowed (run >>= f) := by
  intro c failure c' failed
  rw [start_bind] at failed
  split at failed
  · rename_i a middle passed
    exact rest a c middle passed middle failure c' failed
  · rename_i failure' middle stopped
    cases failed
    exact first c failure c' stopped

protected theorem checkpoint (h : allowed .cancelled) : FailsOnly allowed checkpoint := by
  intro c failure c' failed
  rw [start_checkpoint] at failed
  split at failed <;> cases failed
  exact h

protected theorem consult (outcome : Outcome α) : FailsOnly allowed (consult outcome) := by
  intro c failure c' failed
  rw [start_consult] at failed
  cases failed

protected theorem lift {result : Except Failure α}
    (h : ∀ failure, result = .error failure → allowed failure) :
    FailsOnly allowed (lift result) := by
  intro c failure c' failed
  rw [start_lift] at failed
  cases failed
  exact h failure rfl

protected theorem mapM {f : α → Run β} (each : ∀ a, FailsOnly allowed (f a)) (xs : List α) :
    FailsOnly allowed (xs.mapM f) := by
  induction xs with
  | nil => exact .pure []
  | cons x xs ih =>
      rw [List.mapM_cons]
      exact .bind (each x) fun _ _ _ _ => .bind ih fun _ _ _ _ => .pure _

end FailsOnly

end Run

end CommitSplit
