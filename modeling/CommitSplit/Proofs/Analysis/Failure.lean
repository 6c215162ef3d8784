import CommitSplit.Proofs.Analysis.Engine
import CommitSplit.Proofs.Group.Defects

/-!
# Why an analysis fails

An analysis fails because of its patterns, its edge source or its caller, and for one reason of its
own. The selected changes are selected once more before they are grouped. When the normal form of a
selected path is not normal itself, the second selection knows the file by another path, and the
validation does not find the file that it expects. No analysis of such changes ends with a report,
and an analysis of other changes never fails the validation.
-/

namespace CommitSplit

/-- The failures that a caller, its patterns or its edge source account for. -/
inductive Failure.IsExternal : Failure → Prop
  | invalidPattern (pattern : String) (fault : Glob.Fault) :
      IsExternal (.invalidPattern pattern fault)
  | graphBuild (cause : Fault) : IsExternal (.graphBuild cause)
  | cancelled : IsExternal .cancelled

theorem Exclusion.isExternal_of_ofPatterns {patterns : List String} {failure : Failure}
    (failed : ofPatterns patterns = .error failure) : failure.IsExternal := by
  unfold ofPatterns at failed
  cases read : patterns.mapM readGlob with
  | ok globs =>
      rw [read] at failed
      cases failed
  | error failure' =>
      rw [read] at failed
      cases failed
      obtain ⟨pattern, -, failed⟩ := Attempt.exists_of_mapM_eq_error read
      unfold readGlob at failed
      cases parsed : Glob.parse pattern with
      | ok glob =>
          rw [parsed] at failed
          cases failed
      | error fault =>
          rw [parsed] at failed
          cases failed
          exact .invalidPattern pattern fault

open Run (FailsOnly)

theorem Assembly.failsOnly_enhanceNode (parser : SurfaceParser)
    (kinds : List (String × ChangeKind)) (node : Node) :
    FailsOnly Failure.IsExternal (enhanceNode parser kinds node) := by
  refine .bind (.checkpoint .cancelled) fun _ _ _ _ => ?_
  split
  · exact .bind (.consult _) fun _ _ _ _ => .pure _
  · exact .pure _

theorem failsOnly_assemble (source : EdgeSource) (parser : Option SurfaceParser)
    (changes : List Change) (enhance : Bool) :
    FailsOnly Failure.IsExternal (assemble source parser changes enhance) := by
  rw [assemble_eq]
  refine .bind (.checkpoint .cancelled) fun _ _ _ _ => ?_
  refine .bind (.consult _) fun answer _ _ _ => ?_
  refine .bind (.lift ?_) fun modules _ _ _ => ?_
  · intro failure failed
    cases answer <;> cases failed
    exact .graphBuild _
  · refine .bind ?_ fun enhanced _ _ _ => ?_
    · cases if enhance then parser else none with
      | none => exact .pure _
      | some parser => exact .mapM (Assembly.failsOnly_enhanceNode parser _) _
    · exact .bind (.checkpoint .cancelled) fun _ _ _ _ => .pure _

namespace Engine

theorem failsOnly_graphFor (engine : Engine) (mode : Mode) (changes : List Change)
    (options : Options) :
    FailsOnly Failure.IsExternal (engine.graphFor mode changes options) := by
  cases mode with
  | simple => exact .pure _
  | complex => exact .bind (failsOnly_assemble _ _ _ _) fun _ _ _ _ => .pure _

/-- The validation rejects the groups of selected changes for one reason: some selected path is not
normal, so the groups are no partition of the selected paths. -/
theorem of_validate_eq_error {exclusion : Exclusion} {changes : List Change}
    {graph : Option Graph} {failure : Failure}
    (failed : Group.validate graph (ChangeSet.collect exclusion changes).paths
      (groupsOf exclusion graph (ChangeSet.collect exclusion changes).changes) = .error failure) :
    (∃ defect, failure = .grouping defect ∧ defect.breaksPartition = true) ∧
      ∃ path ∈ (ChangeSet.collect exclusion changes).paths, Path.normalize path ≠ path := by
  constructor
  · unfold Group.validate at failed
    cases checked : Group.check graph (ChangeSet.collect exclusion changes).paths
        (groupsOf exclusion graph (ChangeSet.collect exclusion changes).changes) with
    | ok _ =>
        rw [checked] at failed
        cases failed
    | error defect =>
        rw [checked] at failed
        cases failed
        exact ⟨defect, rfl, Group.breaksPartition_of_check_eq_error
          (fun _ => Group.files_ne_nil_of_mem_form) (fun _ => Group.risk_of_mem_form) checked⟩
  · by_contra normal
    push Not at normal
    rw [Group.validate_eq_ok_iff.mpr (valid_groupsOf_collect_iff.mpr normal)] at failed
    cases failed

/-- The path of a selected change is not the normal form of itself. -/
def SelectsUnstable (changes : List Change) (options : Options) : Prop :=
  ∃ exclusion, Exclusion.ofPatterns options.exclude = .ok exclusion ∧
    ∃ path ∈ (ChangeSet.collect exclusion changes).paths, Path.normalize path ≠ path

/-- What the analysis of some changes may fail with. Groups are rejected for unstable paths only,
and then because they are no partition. -/
def MayFailWith (changes : List Change) (options : Options) (failure : Failure) : Prop :=
  failure.IsExternal ∨
    (∃ defect, failure = .grouping defect ∧ defect.breaksPartition = true) ∧
      SelectsUnstable changes options

theorem failsOnly_analyze (engine : Engine) (changes : List Change) (options : Options) :
    FailsOnly (MayFailWith changes options) (engine.analyze changes options) := by
  have stops : MayFailWith changes options .cancelled := .inl .cancelled
  refine .bind (.checkpoint stops) fun _ _ _ _ => ?_
  refine .bind (.lift ?_) fun exclusion _ _ patterns => ?_
  · exact fun failure failed => .inl (Exclusion.isExternal_of_ofPatterns failed)
  · refine .bind ((failsOnly_graphFor _ _ _ _).mono fun _ => .inl) fun graphed _ _ _ => ?_
    refine .bind (.checkpoint stops) fun _ _ _ _ => ?_
    refine .bind (.checkpoint stops) fun _ _ _ _ => ?_
    refine .bind (.lift ?_) fun _ _ _ _ => .pure _
    intro failure failed
    obtain ⟨defect, unstable⟩ := of_validate_eq_error failed
    rw [Run.start_lift, Prod.mk.injEq] at patterns
    exact .inr ⟨defect, exclusion, patterns.1, unstable⟩

/-- An analysis can fail because of its patterns, its edge source or its caller. It fails for a
reason of its own only when the normal form of some selected path is not normal, and no analysis of
such changes ends with a report. -/
theorem outcome_of_analyze (engine : Engine) (changes : List Change) (options : Options)
    (c : Cancellation) :
    match ((engine.analyze changes options).start c).1 with
    | .ok _ => ¬SelectsUnstable changes options
    | .error failure => MayFailWith changes options failure := by
  cases outcome : (engine.analyze changes options).start c with
  | mk result c' =>
    cases result with
    | ok report =>
        obtain ⟨exclusion, patterns, normal, -⟩ := analyze_eq_ok_iff.mp outcome
        rintro ⟨exclusion', patterns', path, there, unstable⟩
        cases patterns.symm.trans patterns'
        exact unstable (normal path there)
    | error failure => exact failsOnly_analyze engine changes options c failure c' outcome

/-- A change whose path was normalized once can still be unstable: each time only the blank in front
of the text goes, and with it the next `.` segment. -/
theorem analyze_eq_error_of_blank_segments :
    let engine : Engine := ⟨.ofTable [], none⟩
    let changes := [.modified "./ ./ a"]
    (engine.analyze changes .default).start ⟨false, false⟩ =
      (.error (.grouping (.stranger "group-1" "a")), ⟨false, false⟩) := by
  decide

end Engine

end CommitSplit
