import CommitSplit.Proofs.CommandLine.Comparison
import CommitSplit.Proofs.Group.Selection

/-!
# Baselines of repeated paths

A listing and the paths that are given alone may name one file more than once. The analysis keeps
the first change of a path. Baselines are recorded change by change, and what is recorded later
takes the place of what was there, so the baseline of a path is that of its last change that is no
deletion. Both come to the same if all changes of the path compare it with the same file.
-/

namespace CommitSplit.CommandLine

variable {s : Surroundings} {root name path : String} {cs : List Change} {c first last : Change}
  {revision : Revision} {exclusion : Exclusion}

/-- The file of a revision that a change is compared with. -/
def comparedPath (c : Change) : String :=
  c.previousPath.getD c.path

theorem exportsAt_congr (same : c.path = first.path)
    (compared : comparedPath c = comparedPath first) :
    exportsAt revision c = exportsAt revision first := by
  unfold comparedPath at compared
  rw [exportsAt, exportsAt, compared, same]

/-- The change of a path that takes a baseline last. -/
def lastCompared? (cs : List Change) (path : String) : Option Change :=
  cs.reverse.find? fun c => hasBaseline c && Path.normalize c.path = path

theorem of_lastCompared? (found : lastCompared? cs path = some last) :
    last ∈ cs ∧ hasBaseline last = true ∧ Path.normalize last.path = path := by
  have holds := List.find?_some found
  rw [Bool.and_eq_true, decide_eq_true_eq] at holds
  exact ⟨List.mem_reverse.mp (List.mem_of_find?_eq_some found), holds⟩

theorem exists_lastCompared? (there : c ∈ cs) (asked : hasBaseline c = true)
    (named : Path.normalize c.path = path) : ∃ last, lastCompared? cs path = some last := by
  rw [← Option.isSome_iff_exists, lastCompared?, List.find?_isSome]
  exact ⟨c, List.mem_reverse.mpr there, by simp [asked, named]⟩

/-- The rows of a path are searched as its changes are. -/
theorem lookup_map_baselineRow (revision : Revision) (path : String) (cs : List Change) :
    ((cs.filter hasBaseline).map (baselineRow revision)).lookup path =
      (cs.find? fun c => hasBaseline c && Path.normalize c.path = path).map
        (exportsAt revision) := by
  induction cs with
  | nil => rfl
  | cons c cs ih =>
      cases asked : hasBaseline c with
      | false => simpa [asked] using ih
      | true =>
          rw [List.filter_cons_of_pos asked, List.map_cons, baselineRow, Table.lookup_cons_eq_if,
            ih, List.find?_cons, asked, Bool.true_and]
          by_cases named : Path.normalize c.path = path
          · simp [named]
          · simp [named, Ne.symm named]

/-- The latest record of a path is its baseline. -/
theorem get?_baselinesOf_eq (revision : Revision) (cs : List Change) (path : String) :
    (baselinesOf revision cs).get? path = (lastCompared? cs path).map (exportsAt revision) := by
  rw [baselinesOf, Baselines.get?, ← List.map_reverse, ← List.filter_reverse,
    lookup_map_baselineRow, lastCompared?]

/-- The baseline of a path is that of its last change that takes one, while the path is analyzed
under its first change. What the first change is to be compared with is the baseline if every change
of the path that takes one means the same file. -/
theorem baseline_of_last (s : Surroundings) (root name : String) (revision : Revision)
    (cs : List Change) (here : s.files root = .directory)
    (known : s.history root name = some revision) :
    ∃ b, baselinesAt s root cs name = .ok b ∧
      (∀ path, b.get? path = (lastCompared? cs path).map (exportsAt revision)) ∧
      ∀ path first, ChangeSet.first? cs path = some first →
        (∀ exclusion : Exclusion, path ≠ "" → exclusion.excludes path = false →
          (ChangeSet.collect exclusion cs).changes.find? (fun c => c.path = path) =
            some { first with path }) ∧
        (hasBaseline first = true →
          (∃ last, lastCompared? cs path = some last ∧
            b.get? path = some (exportsAt revision last)) ∧
          ((∀ c ∈ cs, hasBaseline c = true → Path.normalize c.path = path →
              c.path = first.path ∧ comparedPath c = comparedPath first) →
            b.get? path = some (exportsAt revision first))) := by
  have recorded (path : String) : (baselinesOf revision cs).get? path =
      (lastCompared? cs path).map (exportsAt revision) := get?_baselinesOf_eq revision cs path
  refine ⟨baselinesOf revision cs, baselinesAt_eq_ok_iff.mpr ⟨here, revision, known, rfl⟩,
    recorded, fun path first found => ⟨fun exclusion some_path kept => ?_, fun asked => ?_⟩⟩
  · rw [ChangeSet.find?_collect some_path kept, found, Option.map_some]
  have named := ChangeSet.normalize_of_first? found
  obtain ⟨last, found_last⟩ :=
    exists_lastCompared? (List.mem_of_find?_eq_some found) asked named
  rw [recorded, found_last, Option.map_some]
  refine ⟨⟨last, rfl, rfl⟩, fun alike => ?_⟩
  obtain ⟨there, asked, named⟩ := of_lastCompared? found_last
  obtain ⟨same, compared⟩ := alike last there asked named
  rw [exportsAt_congr same compared]

/-- A renamed file that is deleted and renamed again in between. -/
theorem baseline_of_last_of_repeated_rename :
    let bytes := Text.Utf8.encode "export const limit = 3;\n"
    let revision := FileTree.ofList [("old.ts", some bytes)]
    let working := FileTree.ofList [("a.ts", some bytes)]
    let s : Surroundings := ⟨working.files, [], working.historyOf revision⟩
    let cs : List Change := [.renamed "old.ts" "a.ts", .deleted "a.ts", .renamed "old.ts" "a.ts"]
    s.files "." = .directory ∧
      ∃ b, baselinesAt s "." cs "HEAD" = .ok b ∧ b.get? "a.ts" = some ["limit"] := by
  intro bytes revision working s cs
  have here : s.files "." = .directory := by decide
  have walked : working.walk "." = .ok (.inside []) := by decide
  have known : s.history "." "HEAD" = some (revision.contentFrom []) := by
    dsimp only [s, FileTree.historyOf]
    rw [walked]
    rfl
  obtain ⟨b, taken, -, kept⟩ :=
    baseline_of_last s "." "HEAD" (revision.contentFrom []) cs here known
  have exported : exportsAt (revision.contentFrom []) (.renamed "old.ts" "a.ts") = ["limit"] := by
    decide +kernel
  refine ⟨here, b, taken, ?_⟩
  rw [← exported]
  exact ((kept "a.ts" (.renamed "old.ts" "a.ts") (by decide)).2 (by decide +kernel)).2
    (by decide)

/-- A path that a listing renames and that is given alone too is analyzed as the renamed file. Its
baseline is that of a file that the revision does not hold, so its exports count as new. -/
theorem baseline_of_later_change :
    let bytes := Text.Utf8.encode "export const limit = 3;\n"
    let revision := FileTree.ofList [("old.ts", some bytes)]
    let working := FileTree.ofList [("a.ts", some bytes)]
    let input := Text.Utf8.encode "R100\told.ts\ta.ts\n"
    let s : Surroundings := ⟨working.files, input, working.historyOf revision⟩
    let cs : List Change := [.renamed "old.ts" "a.ts", .modified "a.ts"]
    let arguments := ["analyze", "--baseline-ref", "HEAD", "--name-status", "-", "a.ts"]
    let report : Report := {
      mode := .complex
      groups :=
        [{ id := "group-1", files := ["a.ts"], risk := .high
           rationale := "a.ts has no dependency links to other changed files; " ++
             "1 with public API changes"
           containsCycle := false, order := ["a.ts"] }]
      totalFiles := 1, elapsedNanos := 0
      warnings := ["1 high-risk groups detected - review recommended"], cycles := []
      excluded := [], validation := [] }
    changes s "." ⟨["a.ts"], some "-"⟩ = .ok cs ∧
      ChangeSet.first? cs "a.ts" = some (.renamed "old.ts" "a.ts") ∧
      exportsAt (revision.contentFrom []) (.renamed "old.ts" "a.ts") = ["limit"] ∧
      (baselinesAt s "." cs "HEAD").toOption.bind (fun b => b.get? "a.ts") = some [] ∧
      execute arguments s = .ok (.report report false) := by
  decide +kernel

end CommitSplit.CommandLine
