import CommitSplit.Proofs.Group.Validation

/-!
# What rejected groups have wrong with them

The defect that the check reports is there: the group that is said to be empty is empty, the file
that is said to be shared is listed twice, and so on. A defect either concerns the division of the
expected files or the description of a group. So groups that divide the files are rejected for their
description only, and groups that are described rightly for their division.
-/

namespace CommitSplit

/-- The files of groups in their order, each with the group that lists it. -/
def Group.listing (groups : List Group) : List (String × String) :=
  groups.flatMap fun group => group.files.map fun file => (file, group.id)

/-- What a defect says is true of groups that should have the expected files. -/
inductive GroupDefect.IsFoundIn (graph : Option Graph) (expected : List String)
    (groups : List Group) : GroupDefect → Prop
  | noFiles {group : Group} (there : group ∈ groups) (no_files : group.files = []) :
      IsFoundIn graph expected groups (.noFiles group.id)
  | stranger {group : Group} {file : String} (there : group ∈ groups) (listed : file ∈ group.files)
      (unknown : file ∉ expected) : IsFoundIn graph expected groups (.stranger group.id file)
  | shared {file first second : String}
      (twice : [(file, first), (file, second)].Sublist (Group.listing groups)) :
      IsFoundIn graph expected groups (.shared file first second)
  | wrongRisk {group : Group} (there : group ∈ groups)
      (wrong : group.risk ≠ aggregateRisk graph group.files) :
      IsFoundIn graph expected groups
        (.wrongRisk group.id group.risk (aggregateRisk graph group.files))
  | missing {files : List String} (some_file : files ≠ [])
      (left_out : files = expected.filter fun path => path ∉ groups.flatMap Group.files) :
      IsFoundIn graph expected groups (.missing files)

namespace Group

/-- The groups divide the expected files: each is in one group, once, and no other file is. -/
structure Partitions (expected : List String) (groups : List Group) : Prop where
  nodup : (groups.flatMap Group.files).Nodup
  mem_iff : ∀ path, path ∈ groups.flatMap Group.files ↔ path ∈ expected

/-- The groups have files and report the risk of these. -/
structure Described (graph : Option Graph) (groups : List Group) : Prop where
  some_files : ∀ group ∈ groups, group.files ≠ []
  risk_eq : ∀ group ∈ groups, group.risk = aggregateRisk graph group.files

variable {graph : Option Graph} {expected : List String} {groups : List Group}
  {defect : GroupDefect}

theorem valid_iff :
    Valid graph expected groups ↔ Described graph groups ∧ Partitions expected groups :=
  ⟨fun h => ⟨⟨h.some_files, h.risk_eq⟩, ⟨h.nodup, h.mem_iff⟩⟩,
    fun h => ⟨h.1.some_files, h.1.risk_eq, h.2.nodup, h.2.mem_iff⟩⟩

theorem map_fst_listing (groups : List Group) :
    (listing groups).map Prod.fst = groups.flatMap Group.files := by
  simp [listing, List.map_flatMap, Function.comp_def]

/-! ## The defect is there -/

/-- A file is rejected because it is not expected or because it was listed before. -/
theorem of_claim_eq_error {id file : String} {owners : Owners}
    (failed : claim expected id owners file = .error defect) :
    file ∉ expected ∧ defect = .stranger id file ∨
      ∃ owner, (file, owner) ∈ owners ∧ defect = .shared file owner id := by
  unfold claim at failed
  split at failed
  · rename_i unknown
    cases failed
    exact .inl ⟨unknown, rfl⟩
  · split at failed
    · rename_i owner owned
      cases failed
      exact .inr ⟨owner, Table.mem_of_lookup_eq_some owned, rfl⟩
    · cases failed

/-- A group behind others is rejected for a defect that is there, whatever follows it. -/
theorem isFoundIn_of_checkOne_eq_error {front behind : List Group} {group : Group}
    (failed : checkOne graph expected (ownersOf front) group = .error defect) :
    defect.IsFoundIn graph expected (front ++ group :: behind) := by
  have there : group ∈ front ++ group :: behind := by simp
  unfold checkOne at failed
  split at failed
  · rename_i no_files
    cases failed
    exact .noFiles there no_files
  · split at failed
    · rename_i claimed
      cases failed
      obtain ⟨earlier, file, later, owners, files_eq, entered, rejected⟩ :=
        Attempt.exists_of_foldlM_eq_error claimed
      obtain ⟨-, -, -, rfl⟩ := foldlM_claim_eq_ok_iff.mp entered
      rcases of_claim_eq_error rejected with ⟨unknown, rfl⟩ | ⟨owner, owned, rfl⟩
      · exact .stranger there (by simp [files_eq]) unknown
      · -- What is owned by now is listed in front of the file.
        have listed : (file, owner) ∈
            listing front ++ earlier.map fun file => (file, group.id) := by
          rw [← List.mem_reverse, List.reverse_append]
          exact owned
        have behind_listed : listing (front ++ group :: behind) =
            (listing front ++ earlier.map fun file => (file, group.id)) ++
              (file, group.id) :: ((later.map fun file => (file, group.id)) ++ listing behind) := by
          simp [listing, files_eq]
        refine .shared ?_
        rw [behind_listed]
        exact (List.singleton_sublist.mpr listed).append
          (List.singleton_sublist.mpr List.mem_cons_self)
    · dsimp only at failed
      split at failed
      · rename_i wrong
        cases failed
        exact .wrongRisk there wrong
      · cases failed

theorem isFoundIn_of_check_eq_error (failed : check graph expected groups = .error defect) :
    defect.IsFoundIn graph expected groups := by
  unfold check at failed
  split at failed
  · rename_i checked
    cases failed
    obtain ⟨front, group, behind, owners, rfl, passed, rejected⟩ :=
      Attempt.exists_of_foldlM_eq_error checked
    obtain ⟨-, -, -, -, rfl⟩ := foldlM_checkOne_eq_ok_iff.mp passed
    rw [List.append_nil] at rejected
    exact isFoundIn_of_checkOne_eq_error rejected
  · rename_i owners passed
    obtain ⟨-, -, -, -, rfl⟩ := foldlM_checkOne_eq_ok_iff.mp passed
    dsimp only at failed
    split at failed
    · cases failed
    · rename_i some_missing
      cases failed
      refine .missing some_missing (List.filter_congr fun path _ => ?_)
      rw [Bool.eq_iff_iff, decide_eq_true_iff, List.append_nil, Table.isNone_lookup_iff,
        map_fst_ownersOf, List.mem_reverse]

/-! ## The two kinds of defects -/

/-- Groups that are described rightly can only fail to be a partition. -/
theorem Described.breaksPartition_eq_true (described : Described graph groups)
    (found : defect.IsFoundIn graph expected groups) : defect.breaksPartition = true := by
  cases found with
  | noFiles there no_files => exact absurd no_files (described.some_files _ there)
  | wrongRisk there wrong => exact absurd (described.risk_eq _ there) wrong
  | stranger | shared | missing => rfl

/-- Groups that are a partition can only be described wrongly. -/
theorem Partitions.breaksPartition_eq_false (partitions : Partitions expected groups)
    (found : defect.IsFoundIn graph expected groups) : defect.breaksPartition = false := by
  cases found with
  | noFiles | wrongRisk => rfl
  | stranger there listed unknown =>
      exact absurd ((partitions.mem_iff _).mp (List.mem_flatMap.mpr ⟨_, there, listed⟩)) unknown
  | shared twice =>
      have repeated := twice.map Prod.fst
      rw [map_fst_listing] at repeated
      have once := partitions.nodup.sublist repeated
      simp at once
  | missing some_file left_out =>
      refine absurd (left_out.trans (List.filter_eq_nil_iff.mpr fun path there => ?_)) some_file
      simpa using (partitions.mem_iff path).mpr there

/-- Groups that have files and the right risks can only fail to be a partition. -/
theorem breaksPartition_of_check_eq_error
    (some_files : ∀ group ∈ groups, group.files ≠ [])
    (risk_eq : ∀ group ∈ groups, group.risk = aggregateRisk graph group.files)
    (failed : check graph expected groups = .error defect) : defect.breaksPartition = true :=
  Described.breaksPartition_eq_true ⟨some_files, risk_eq⟩ (isFoundIn_of_check_eq_error failed)

theorem exists_defect_of_validate_eq_error {failure : Failure}
    (failed : validate graph expected groups = .error failure) :
    ∃ defect, failure = .grouping defect ∧ defect.IsFoundIn graph expected groups := by
  unfold validate at failed
  cases checked : check graph expected groups with
  | ok _ =>
      rw [checked] at failed
      cases failed
  | error defect =>
      rw [checked] at failed
      cases failed
      exact ⟨defect, rfl, isFoundIn_of_check_eq_error checked⟩

/-- Groups are accepted when they are described rightly and divide the expected files. A failure
names a defect that is there, so its kind tells which of the two does not hold if the other does. -/
theorem validate_sound_complete (graph : Option Graph) (expected : List String)
    (groups : List Group) :
    (validate graph expected groups = .ok () ↔
        Described graph groups ∧ Partitions expected groups) ∧
      (∀ failure, validate graph expected groups = .error failure →
        ∃ defect, failure = .grouping defect ∧ defect.IsFoundIn graph expected groups) ∧
      (Described graph groups → ¬Partitions expected groups →
        ∃ failure, validate graph expected groups = .error failure ∧
          failure.kind = "GroupingInvariant") ∧
      (Partitions expected groups → ¬Described graph groups →
        ∃ failure, validate graph expected groups = .error failure ∧
          failure.kind = "Validation") := by
  have accepted : validate graph expected groups = .ok () ↔
      Described graph groups ∧ Partitions expected groups :=
    validate_eq_ok_iff.trans valid_iff
  have rejected (invalid : ¬(Described graph groups ∧ Partitions expected groups)) :
      ∃ defect, validate graph expected groups = .error (.grouping defect) ∧
        defect.IsFoundIn graph expected groups := by
    cases validated : validate graph expected groups with
    | ok _ => exact absurd (accepted.mp validated) invalid
    | error failure =>
        obtain ⟨defect, rfl, found⟩ := exists_defect_of_validate_eq_error validated
        exact ⟨defect, rfl, found⟩
  refine ⟨accepted, fun _ => exists_defect_of_validate_eq_error,
    fun described divided => ?_, fun partitions described => ?_⟩
  · obtain ⟨defect, failed, found⟩ := rejected fun valid => divided valid.2
    exact ⟨_, failed, by simp [Failure.kind, described.breaksPartition_eq_true found]⟩
  · obtain ⟨defect, failed, found⟩ := rejected fun valid => described valid.1
    exact ⟨_, failed, by simp [Failure.kind, partitions.breaksPartition_eq_false found]⟩

end Group

end CommitSplit
