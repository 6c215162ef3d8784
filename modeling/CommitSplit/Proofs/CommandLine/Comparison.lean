import CommitSplit.CommandLine.Execution
import CommitSplit.Proofs.Analysis.Risk
import CommitSplit.Proofs.Analysis.Shortcut
import CommitSplit.Proofs.Change.Listing
import CommitSplit.Proofs.Files.History
import CommitSplit.Proofs.Surface.Baseline

/-!
# Comparing files with a revision

An analysis that compares with a revision keeps a baseline for every changed file that has a grammar
and is not deleted. The file is read below the root, but the revision is asked for the path as it is
written, which git resolves from the top of the repository. So both are the same file if the root
is the top of the repository, and then a file that has not changed is not reported for its exports.
Below any other root a baseline is of another file or of none.
-/

namespace CommitSplit

namespace CommandLine

variable {s : Surroundings} {root name : String} {source : Source} {overrides : Overrides}
  {json : Bool} {cs : List Change} {c : Change} {revision : Revision} {b : Baselines}

/-! ## Changes -/

/-- The changes of a listing were read from some text. -/
theorem exists_text_of_listedChanges {file : String} (read : listedChanges s file = .ok cs) :
    ∃ text, Change.ofListing text = .ok cs := by
  unfold listedChanges at read
  split at read
  · split at read
    · exact ⟨_, Attempt.mapError_eq_ok_iff.mp read⟩
    · cases read
  · obtain ⟨text, -, read⟩ := Attempt.bind_eq_ok_iff.mp read
    exact ⟨text, Attempt.mapError_eq_ok_iff.mp read⟩

/-- Every change stands in a listing or is of a path that is given alone. -/
theorem listed_or_alone_of_mem_changes (asked : changes s root source = .ok cs) (there : c ∈ cs) :
    (∃ text listed, Change.ofListing text = .ok listed ∧ c ∈ listed) ∨
      ∃ path, changeAt s root path = c := by
  have alone (listed : List Change)
      (all : (if listed ++ source.paths.map (changeAt s root) = [] then .error .noChanges
        else .ok (listed ++ source.paths.map (changeAt s root))) = Except.ok (ε := Complaint) cs) :
      c ∈ listed ∨ ∃ path, changeAt s root path = c := by
    split at all <;> cases all
    refine (List.mem_append.mp there).imp_right fun of_paths => ?_
    obtain ⟨path, -, same⟩ := List.mem_map.mp of_paths
    exact ⟨path, same⟩
  unfold changes at asked
  cases listing : source.listing with
  | none =>
      rw [listing] at asked
      exact .inr ((alone [] asked).resolve_left (by simp))
  | some file =>
      rw [listing] at asked
      obtain ⟨listed, read, asked⟩ := Attempt.bind_eq_ok_iff.mp asked
      obtain ⟨text, read⟩ := exists_text_of_listedChanges read
      exact (alone listed asked).imp_left fun of_listing => ⟨text, listed, read, of_listing⟩

/-- Only a renamed file has a previous path. -/
theorem previousPath_of_mem_changes (asked : changes s root source = .ok cs) (there : c ∈ cs)
    (kept : c.kind ≠ .renamed) : c.previousPath = none := by
  rcases listed_or_alone_of_mem_changes asked there with ⟨text, listed, read, there⟩ | ⟨path, rfl⟩
  · exact Change.previousPath_of_ofListing read there kept
  · rw [changeAt]
    split <;> rfl

/-! ## Baselines -/

/-- What a changed file exported at a revision, if it was there. -/
def exportsAt (revision : Revision) (c : Change) : List String :=
  match revision (c.previousPath.getD c.path) with
  | some bytes => SurfaceNames.exportsOf c.path (Text.Utf8.lenientText bytes)
  | none => []

/-- The baseline of a change. -/
def baselineRow (revision : Revision) (c : Change) : String × List String :=
  (Path.normalize c.path, exportsAt revision c)

/-- The baselines of changes at a revision, the latest first. -/
def baselinesOf (revision : Revision) (cs : List Change) : Baselines :=
  ⟨((cs.filter hasBaseline).map (baselineRow revision)).reverse⟩

/-- A file that has a grammar is given a baseline, whatever the revision holds. -/
theorem addBaseline_eq (asked : hasBaseline c = true) :
    addBaseline revision b c = .ok (b.insert c.path (exportsAt revision c)) := by
  have known : (Grammar.ofPath? c.path).isSome = true := by
    rw [hasBaseline, Bool.and_eq_true] at asked
    exact asked.2
  rw [addBaseline, exportsAt]
  cases revision (c.previousPath.getD c.path) with
  | none => rfl
  | some bytes =>
      dsimp only
      rw [Baselines.insertText_eq known, Except.mapError]

theorem foldlM_addBaseline (asked : ∀ c ∈ cs, hasBaseline c = true) :
    cs.foldlM (addBaseline revision) b =
      .ok ⟨(cs.map (baselineRow revision)).reverse ++ b.entries⟩ := by
  induction cs generalizing b with
  | nil => rfl
  | cons c cs ih =>
      obtain ⟨asked_first, asked⟩ := List.forall_mem_cons.mp asked
      rw [List.foldlM_cons, addBaseline_eq asked_first]
      refine (ih asked).trans ?_
      simp [Baselines.insert, baselineRow]

/-- Baselines are taken of a revision that is known from the root, and then nothing fails. -/
theorem baselinesAt_eq_ok_iff :
    baselinesAt s root cs name = .ok b ↔
      s.files root = .directory ∧
        ∃ revision, s.history root name = some revision ∧ baselinesOf revision cs = b := by
  have fold (revision : Revision) :
      (cs.filter hasBaseline).foldlM (addBaseline revision) Baselines.empty =
        .ok (baselinesOf revision cs) := by
    rw [foldlM_addBaseline fun c there => (List.mem_filter.mp there).2]
    simp [baselinesOf, Baselines.empty]
  unfold baselinesAt
  split
  · simp [*]
  · cases s.history root name with
    | none => simp
    | some revision => simp_all

/-- The baseline of a file that is named once. -/
theorem get?_baselinesOf (revision : Revision)
    (distinct : (cs.map fun c => Path.normalize c.path).Nodup) (there : c ∈ cs)
    (asked : hasBaseline c = true) :
    (baselinesOf revision cs).get? (Path.normalize c.path) = some (exportsAt revision c) := by
  have keys : ((cs.filter hasBaseline).map (baselineRow revision)).map Prod.fst =
      (cs.filter hasBaseline).map fun c => Path.normalize c.path := List.map_map
  refine Table.lookup_eq_some_of_mem ?_ (List.mem_reverse.mpr (List.mem_map.mpr
    ⟨c, List.mem_filter.mpr ⟨there, asked⟩, rfl⟩))
  rw [baselinesOf, List.map_reverse, List.nodup_reverse, keys]
  exact distinct.sublist (List.filter_sublist.map _)

/-! ## Analyses -/

/-- What an analysis went through that compared the changes with a revision. -/
structure Compares (s : Surroundings) (root : String) (source : Source) (overrides : Overrides)
    (revision : Revision) (report : Report) (cs : List Change) (graph : Option Graph) : Prop where
  asked : changes s root source = .ok cs
  finished : ∃ options exclusion, configured s root = .ok options ∧
    Engine.Finished (engineAt s root (some (baselinesOf revision cs))) cs (overrides.apply options)
      report exclusion graph

theorem exists_compares_of_execute {answer : Answer}
    (executed : (Invocation.mk root (.analyze source overrides (some name) json)).execute s =
      .ok answer) :
    ∃ revision report cs graph, s.history root name = some revision ∧
      answer = .report report json ∧
      Compares s root source overrides revision report cs graph := by
  obtain ⟨cs, asked, executed⟩ := Attempt.bind_eq_ok_iff.mp executed
  obtain ⟨options, configured, executed⟩ := Attempt.bind_eq_ok_iff.mp executed
  obtain ⟨b, taken, executed⟩ := Attempt.bind_eq_ok_iff.mp executed
  obtain ⟨-, revision, known, rfl⟩ := baselinesAt_eq_ok_iff.mp taken
  obtain ⟨report, analyzed, ⟨⟩⟩ := Attempt.bind_eq_ok_iff.mp executed
  obtain ⟨exclusion, graph, finished⟩ :=
    Engine.exists_finished (Prod.ext (Attempt.mapError_eq_ok_iff.mp analyzed) rfl)
  exact ⟨revision, report, cs, graph, known, rfl, asked, options, exclusion, configured, finished⟩

/-- A file is unchanged if the revision holds, under its path, the text that it has below the
root. -/
structure Unchanged (s : Surroundings) (root : String) (revision : Revision) (c : Change) :
    Prop where
  normal : Path.normalize c.path = c.path
  kept : c.kind ≠ .deleted ∧ c.kind ≠ .renamed
  same : ∃ bytes text, Text.Utf8.text? bytes = some text ∧
    s.files.below root c.path = .file bytes ∧ revision c.path = some bytes

/-- An unchanged file that is named once is neither flagged nor a high risk for its exports. -/
theorem Compares.not_flagged {report : Report} {graph : Graph}
    (h : Compares s root source overrides revision report cs (some graph))
    (complex : report.mode = .complex)
    (distinct : (cs.map fun c => Path.normalize c.path).Nodup) (there : c ∈ cs)
    (unchanged : Unchanged s root revision c) :
    (graph.node? c.path).any Node.surfaceChanged = false ∧
      (graph.memberRisk c.path = .high → graph.isInCycle c.path = true) := by
  obtain ⟨bytes, text, decoded, here, held⟩ := unchanged.same
  obtain ⟨options, exclusion, -, finished⟩ := h.finished
  have opened : (s.files.below root c.path).text = .ok text := by
    rw [here, FileStatus.text, decoded]
  have exported : exportsAt revision c = SurfaceNames.exportsOf c.path text := by
    rw [exportsAt, previousPath_of_mem_changes h.asked there unchanged.kept.2, Option.getD_none,
      held, ← Text.Utf8.lenientText_of_text? decoded]
  have hidden : ¬((graph.node? c.path).any Node.surfaceChanged = true ∨
      graph.isInCycle c.path = false ∧ graph.memberRisk c.path = .high) := by
    intro shows
    obtain ⟨parser, surface, asked, parsed, altered⟩ :=
      finished.exists_changed_surface complex (Scanner.reportsNormal _) shows
    cases asked
    have asked : hasBaseline c = true := by
      rw [hasBaseline, (Surface.exists_of_ofFile unchanged.normal parsed).1]
      simpa using unchanged.kept.1
    have known := get?_baselinesOf revision distinct there asked
    rw [unchanged.normal, exported] at known
    rw [Surface.changed_eq_false_of_get? unchanged.normal opened known parsed] at altered
    cases altered
  rw [not_or, Bool.not_eq_true, not_and'] at hidden
  exact ⟨hidden.1, fun high => Bool.of_not_eq_false (hidden.2 high)⟩

/-- If the root is the top of the repository, no unchanged file is flagged, and its group is not a
high risk for its exports. -/
theorem unchanged_not_flagged_at_top (s : Surroundings) (root name : String) (source : Source)
    (overrides : Overrides) (json : Bool) (tree : FileTree) (report : Report)
    (top : s.history root name = some (tree.contentFrom []))
    (executed : (Invocation.mk root (.analyze source overrides (some name) json)).execute s =
      .ok (.report report json))
    (complex : report.mode = .complex) :
    ∃ cs graph, Compares s root source overrides (tree.contentFrom []) report cs (some graph) ∧
      ((cs.map fun c => Path.normalize c.path).Nodup →
        ∀ c ∈ cs, c.kind ≠ .deleted → c.kind ≠ .renamed → Path.normalize c.path = c.path →
          ∀ bytes, (Text.Utf8.text? bytes).isSome = true →
            s.files.below root c.path = .file bytes → tree.files c.path = .file bytes →
              (graph.node? c.path).any Node.surfaceChanged = false ∧
                (graph.memberRisk c.path = .high → graph.isInCycle c.path = true)) := by
  obtain ⟨revision, report, cs, graph, known, ⟨⟩, compares⟩ := exists_compares_of_execute executed
  cases top.symm.trans known
  obtain ⟨options, exclusion, -, finished⟩ := compares.finished
  obtain ⟨modules, -, rfl⟩ := finished.assembled complex
  refine ⟨cs, _, compares, fun distinct c there remains stays normal bytes decoded here held => ?_⟩
  obtain ⟨text, decoded⟩ := Option.isSome_iff_exists.mp decoded
  exact compares.not_flagged complex distinct there ⟨normal, ⟨remains, stays⟩, bytes, text, decoded,
    here, FileTree.contentFrom_of_files held⟩

/-- A constant that is exported as before, seen from the top. -/
theorem unchanged_not_flagged_at_top_of_constant :
    let bytes := Text.Utf8.encode "export const limit = 3;\n"
    let tree := FileTree.ofList [("sub/a.ts", some bytes)]
    let s : Surroundings := ⟨tree.files, [], tree.historyOf tree⟩
    let source : Source := ⟨["sub/a.ts"], none⟩
    let overrides : Overrides := ⟨none, [], true⟩
    let report : Report := {
      mode := .complex
      groups :=
        [{ id := "group-1", files := ["sub/a.ts"], risk := .low
           rationale := "sub/a.ts has no dependency links to other changed files"
           containsCycle := false, order := ["sub/a.ts"] }]
      totalFiles := 1, elapsedNanos := 0, warnings := [], cycles := [], excluded := []
      validation := [] }
    (Invocation.mk "." (.analyze source overrides (some "HEAD") false)).execute s =
        .ok (.report report false) ∧
      tree.files "sub/a.ts" = .file bytes ∧
      ∃ graph, Compares s "." source overrides (tree.contentFrom []) report
          [.modified "sub/a.ts"] (some graph) ∧
        (graph.node? "sub/a.ts").any Node.surfaceChanged = false ∧
          (graph.memberRisk "sub/a.ts" = .high → graph.isInCycle "sub/a.ts" = true) := by
  intro bytes tree s source overrides report
  have walked : tree.walk "." = .ok (.inside []) := by decide +kernel
  have top : s.history "." "HEAD" = some (tree.contentFrom []) := by
    dsimp only [s, FileTree.historyOf]
    rw [walked]
    rfl
  have executed : (Invocation.mk "." (.analyze source overrides (some "HEAD") false)).execute s =
      .ok (.report report false) := by decide +kernel
  have held : tree.files "sub/a.ts" = .file bytes := by decide +kernel
  obtain ⟨cs, graph, compares, unflagged⟩ := unchanged_not_flagged_at_top s "." "HEAD" source
    overrides false tree report top executed rfl
  have asked : changes s "." source = .ok [.modified "sub/a.ts"] := by decide +kernel
  cases asked.symm.trans compares.asked
  exact ⟨executed, held, graph, compares, unflagged (by decide +kernel) (.modified "sub/a.ts")
    (by decide) (by decide) (by decide) (by decide +kernel) bytes (by decide +kernel)
    (by decide +kernel) held⟩

/-- Below a directory the same file is flagged: no baseline of it is found at the top, so all that
it exports counts as new. -/
theorem flagged_below_directory :
    let bytes := Text.Utf8.encode "export const limit = 3;\n"
    let tree := FileTree.ofList [("sub/a.ts", some bytes)]
    let s : Surroundings := ⟨tree.files, [], tree.historyOf tree⟩
    let arguments := ["--root", "sub", "analyze", "--baseline-ref", "HEAD", "a.ts"]
    let report : Report := {
      mode := .complex
      groups :=
        [{ id := "group-1", files := ["a.ts"], risk := .high
           rationale := "a.ts has no dependency links to other changed files; " ++
             "1 with public API changes"
           containsCycle := false, order := ["a.ts"] }]
      totalFiles := 1, elapsedNanos := 0
      warnings := ["1 high-risk groups detected - review recommended"], cycles := []
      excluded := [], validation := [] }
    Path.join "sub" "a.ts" = "sub/a.ts" ∧ tree.files "sub/a.ts" = .file bytes ∧
      (Text.Utf8.text? bytes).isSome = true ∧
      changes s "sub" ⟨["a.ts"], none⟩ = .ok [.modified "a.ts"] ∧
      execute arguments s = .ok (.report report false) := by
  decide +kernel

end CommandLine

end CommitSplit
