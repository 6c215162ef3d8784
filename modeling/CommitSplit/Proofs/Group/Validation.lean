import CommitSplit.Group.Validation
import CommitSplit.Proofs.Attempt
import CommitSplit.Proofs.Group.Formation
import CommitSplit.Proofs.Table
import Mathlib.Data.List.Nodup

/-!
# What validated groups satisfy

The check walks through the files of all groups in order and remembers the owner of each. It
succeeds exactly when no file is met twice, the files are the expected ones, no group is empty and
every risk is that of the members. Groups as they are formed have files and the right risks, and
they are a partition of the files that they were formed from.
-/

namespace CommitSplit.Group

/-- Groups as they should be: a partition of the expected files with the right risks. -/
structure Valid (graph : Option Graph) (expected : List String) (groups : List Group) : Prop where
  some_files : ∀ group ∈ groups, group.files ≠ []
  risk_eq : ∀ group ∈ groups, group.risk = aggregateRisk graph group.files
  nodup : (groups.flatMap Group.files).Nodup
  mem_iff : ∀ path, path ∈ groups.flatMap Group.files ↔ path ∈ expected

variable {graph : Option Graph} {expected : List String} {id : String} {files : List String}
  {group : Group} {groups : List Group} {owners owners' : Owners}

/-- The owners of the files of groups, the last one first. -/
def ownersOf (groups : List Group) : Owners :=
  (groups.flatMap fun group => group.files.map fun file => (file, group.id)).reverse

theorem map_fst_ownersOf (groups : List Group) :
    (ownersOf groups).map Prod.fst = (groups.flatMap Group.files).reverse := by
  simp [ownersOf, List.map_flatMap, Function.comp_def]

theorem claim_eq_ok_iff {file : String} :
    claim expected id owners file = .ok owners' ↔
      file ∈ expected ∧ file ∉ owners.map Prod.fst ∧ owners' = (file, id) :: owners := by
  unfold claim
  split
  · rename_i stranger
    exact ⟨nofun, fun h => absurd h.1 stranger⟩
  · rename_i known
    cases owned : owners.lookup file with
    | some owner =>
        refine ⟨nofun, fun h => ?_⟩
        rw [Table.lookup_eq_none_iff.mpr h.2.1] at owned
        cases owned
    | none =>
        simp only [Except.ok.injEq]
        exact ⟨fun h => ⟨not_not.mp known, Table.lookup_eq_none_iff.mp owned, h.symm⟩,
          fun h => h.2.2.symm⟩

/-- Files are entered when all are expected and none has an owner or is repeated. -/
theorem foldlM_claim_eq_ok_iff :
    files.foldlM (claim expected id) owners = .ok owners' ↔
      (∀ file ∈ files, file ∈ expected) ∧ files.Nodup ∧ files.Disjoint (owners.map Prod.fst) ∧
        owners' = (files.map fun file => (file, id)).reverse ++ owners := by
  induction files generalizing owners with
  | nil =>
      simp only [List.foldlM_nil]
      exact ⟨fun h => ⟨nofun, .nil, List.disjoint_nil_left _, by cases h; rfl⟩,
        fun h => h.2.2.2 ▸ rfl⟩
  | cons file files ih =>
      rw [List.foldlM_cons, Attempt.bind_eq_ok_iff]
      simp only [claim_eq_ok_iff]
      constructor
      · rintro ⟨owners₁, ⟨known, unowned, rfl⟩, rest⟩
        obtain ⟨known', nodup, apart, rfl⟩ := ih.mp rest
        rw [List.map_cons, List.disjoint_cons_right] at apart
        refine ⟨List.forall_mem_cons.mpr ⟨known, known'⟩, List.nodup_cons.mpr ⟨apart.1, nodup⟩,
          List.disjoint_cons_left.mpr ⟨unowned, apart.2⟩, by simp⟩
      · rintro ⟨known, nodup, apart, rfl⟩
        obtain ⟨known, known'⟩ := List.forall_mem_cons.mp known
        obtain ⟨fresh, nodup⟩ := List.nodup_cons.mp nodup
        obtain ⟨unowned, apart⟩ := List.disjoint_cons_left.mp apart
        refine ⟨_, ⟨known, unowned, rfl⟩, ih.mpr ⟨known', nodup, ?_, by simp⟩⟩
        exact List.disjoint_cons_right.mpr ⟨fresh, apart⟩

theorem checkOne_eq_ok_iff :
    checkOne graph expected owners group = .ok owners' ↔
      (group.files ≠ [] ∧ group.risk = aggregateRisk graph group.files) ∧
        (∀ file ∈ group.files, file ∈ expected) ∧ group.files.Nodup ∧
          group.files.Disjoint (owners.map Prod.fst) ∧ owners' = ownersOf [group] ++ owners := by
  have entered := @foldlM_claim_eq_ok_iff expected group.id group.files owners
  have single : ownersOf [group] = (group.files.map fun file => (file, group.id)).reverse := by
    simp [ownersOf]
  rw [single]
  unfold checkOne
  split
  · rename_i no_files
    exact ⟨nofun, fun h => absurd no_files h.1.1⟩
  · rename_i some_files
    cases claimed : group.files.foldlM (claim expected group.id) owners with
    | error defect =>
        refine ⟨nofun, fun h => ?_⟩
        rw [entered.mpr h.2] at claimed
        cases claimed
    | ok owners₁ =>
        obtain ⟨known, nodup, apart, rfl⟩ := entered.mp claimed
        dsimp only
        split
        · rename_i wrong
          exact ⟨nofun, fun h => absurd h.1.2 wrong⟩
        · rename_i right
          rw [Except.ok.injEq]
          exact ⟨fun h => ⟨⟨some_files, not_not.mp right⟩, known, nodup, apart, h.symm⟩,
            fun h => h.2.2.2.2.symm⟩

theorem foldlM_checkOne_eq_ok_iff :
    groups.foldlM (checkOne graph expected) owners = .ok owners' ↔
      (∀ group ∈ groups, group.files ≠ [] ∧ group.risk = aggregateRisk graph group.files) ∧
        (∀ file ∈ groups.flatMap Group.files, file ∈ expected) ∧
          (groups.flatMap Group.files).Nodup ∧
            (groups.flatMap Group.files).Disjoint (owners.map Prod.fst) ∧
              owners' = ownersOf groups ++ owners := by
  induction groups generalizing owners with
  | nil =>
      simp only [List.foldlM_nil]
      exact ⟨fun h => ⟨nofun, nofun, .nil, List.disjoint_nil_left _, by cases h; rfl⟩,
        fun h => h.2.2.2.2 ▸ rfl⟩
  | cons group groups ih =>
      have owned : ownersOf (group :: groups) = ownersOf groups ++ ownersOf [group] := by
        simp [ownersOf]
      have names : (ownersOf [group] ++ owners).map Prod.fst =
          group.files.reverse ++ owners.map Prod.fst := by
        rw [List.map_append, map_fst_ownersOf]
        simp
      rw [List.foldlM_cons, Attempt.bind_eq_ok_iff, owned, List.flatMap_cons]
      simp only [checkOne_eq_ok_iff]
      constructor
      · rintro ⟨owners₁, ⟨good, known, nodup, apart, rfl⟩, rest⟩
        obtain ⟨goods, known', nodup', apart', rfl⟩ := ih.mp rest
        rw [names, List.disjoint_append_right] at apart'
        obtain ⟨others, unowned⟩ := apart'
        refine ⟨List.forall_mem_cons.mpr ⟨good, goods⟩, ?_, ?_, ?_, by simp⟩
        · exact List.forall_mem_append.mpr ⟨known, known'⟩
        · exact nodup.append nodup' (fun _ h h' => others h' (List.mem_reverse.mpr h))
        · exact List.disjoint_append_left.mpr ⟨apart, unowned⟩
      · rintro ⟨goods, known, nodup, apart, rfl⟩
        obtain ⟨good, goods⟩ := List.forall_mem_cons.mp goods
        obtain ⟨known, known'⟩ := List.forall_mem_append.mp known
        obtain ⟨nodup, nodup', others⟩ := List.nodup_append'.mp nodup
        obtain ⟨apart, unowned⟩ := List.disjoint_append_left.mp apart
        refine ⟨_, ⟨good, known, nodup, apart, rfl⟩, ih.mpr ⟨goods, known', nodup', ?_, by simp⟩⟩
        rw [names]
        exact List.disjoint_append_right.mpr
          ⟨fun _ h h' => others (List.mem_reverse.mp h') h, unowned⟩

/-- The check accepts exactly the groups that are as they should be. -/
theorem check_eq_ok_iff : check graph expected groups = .ok () ↔ Valid graph expected groups := by
  have entered := @foldlM_checkOne_eq_ok_iff graph expected groups []
  unfold check
  cases checked : groups.foldlM (checkOne graph expected) [] with
  | error defect =>
      refine ⟨nofun, fun valid => ?_⟩
      rw [entered.mpr ⟨fun group h => ⟨valid.some_files group h, valid.risk_eq group h⟩,
        fun file => (valid.mem_iff file).mp, valid.nodup, List.disjoint_nil_right _, rfl⟩]
        at checked
      cases checked
  | ok owners =>
      obtain ⟨goods, known, nodup, -, rfl⟩ := entered.mp checked
      have none_missing : (expected.filter fun path =>
          ((ownersOf groups ++ []).lookup path).isNone) = [] ↔
            ∀ path ∈ expected, path ∈ groups.flatMap Group.files := by
        simp only [List.append_nil, List.filter_eq_nil_iff, Table.isNone_lookup_iff,
          map_fst_ownersOf, List.mem_reverse, not_not]
      dsimp only
      split
      · rename_i covered
        rw [none_missing] at covered
        exact ⟨fun _ => ⟨fun group h => (goods group h).1, fun group h => (goods group h).2, nodup,
          fun path => ⟨known path, covered path⟩⟩, fun _ => rfl⟩
      · rename_i some_missing
        exact ⟨nofun, fun valid =>
          absurd (none_missing.mpr fun path => (valid.mem_iff path).mpr) some_missing⟩

theorem validate_eq_ok_iff :
    validate graph expected groups = .ok () ↔ Valid graph expected groups := by
  rw [validate, Attempt.mapError_eq_ok_iff, check_eq_ok_iff]

/-! ## Formed groups -/

/-- Groups that are formed from distinct files are as they should be for these files. -/
theorem valid_form {paths : List String} (graph : Option Graph) (nodup : paths.Nodup) :
    Valid graph paths (form graph paths) where
  some_files _ := files_ne_nil_of_mem_form
  risk_eq _ := risk_of_mem_form
  nodup := (flatMap_files_form_perm graph paths).nodup_iff.mpr nodup
  mem_iff _ := (flatMap_files_form_perm graph paths).mem_iff

end CommitSplit.Group
