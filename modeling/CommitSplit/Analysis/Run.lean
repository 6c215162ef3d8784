import CommitSplit.Collaborator

/-!
# Runs that can be cancelled

A run computes a value or ends with a failure while it carries a cancellation flag. Collaborators
may raise the flag; a checkpoint ends the run when the flag is up, provided that the run watches it.
-/

namespace CommitSplit

/-- A cancellation flag, and whether the run watches it. -/
structure Cancellation where
  watched : Bool
  raised : Bool
  deriving DecidableEq, Inhabited

abbrev Run (α : Type) :=
  ExceptT Failure (StateM Cancellation) α

namespace Run

/-- Runs from a flag to the end. -/
def start (run : Run α) (c : Cancellation) : Except Failure α × Cancellation :=
  StateT.run (ExceptT.run run) c

/-- Ends the run if it is cancelled. -/
def checkpoint : Run Unit := do
  let c ← get
  if c.watched && c.raised then throw .cancelled

/-- Takes the outcome of a call into account. -/
def consult (outcome : Outcome α) : Run (Except Fault α) := do
  modify fun c => { c with raised := c.raised || outcome.cancels }
  return outcome.answer

/-- A value or a failure that does not depend on the flag. -/
def lift (result : Except Failure α) : Run α :=
  match result with
  | .ok x => return x
  | .error failure => throw failure

end Run

end CommitSplit
