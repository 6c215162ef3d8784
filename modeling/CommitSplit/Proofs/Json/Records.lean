import CommitSplit.Analysis.Report
import CommitSplit.Node
import CommitSplit.Options
import CommitSplit.Proofs.Json.Decode

/-!
# Records as data

Every record is read back from its data as it was. A field that may be absent is left out when it
is, so an absent one is told from every present one. Counts have to fit the words that hold them, and
of the elapsed time only the whole milliseconds are kept.
-/

namespace CommitSplit

open Fields (required?_named orElse?_named_of_some orElse?_named_of_map)

/-! ## Constants -/

theorem ChangeKind.constant?_name (k : ChangeKind) :
    Json.constant? all name (.str k.name) = some k :=
  Json.constant?_str (by cases k <;> decide) (by cases k <;> decide)

theorem NodeKind.constant?_name (k : NodeKind) :
    Json.constant? all name (.str k.name) = some k :=
  Json.constant?_str (by cases k <;> decide) (by cases k <;> decide)

theorem Language.constant?_name (l : Language) :
    Json.constant? all name (.str l.name) = some l :=
  Json.constant?_str (by cases l <;> decide) (by cases l <;> decide)

theorem Risk.constant?_name (r : Risk) : Json.constant? all name (.str r.name) = some r :=
  Json.constant?_str (by cases r <;> decide) (by cases r <;> decide)

theorem Mode.constant?_name (m : Mode) : Json.constant? all name (.str m.name) = some m :=
  Json.constant?_str (by cases m <;> decide) (by cases m <;> decide)

theorem ModeRequest.constant?_name (m : ModeRequest) :
    Json.constant? all name (.str m.name) = some m :=
  Json.constant?_str (by cases m <;> decide) (by cases m <;> decide)

/-! ## Records -/

/-- Line counts are words of 32 bits. -/
def LineDelta.FitsWords (d : LineDelta) : Prop :=
  d.insertions < UInt32.size ∧ d.deletions < UInt32.size

theorem LineDelta.ofJson?_toJson {d : LineDelta} (fits : d.FitsWords) :
    ofJson? d.toJson = some d := by
  have insertions : Json.word? (.nat d.insertions) = some d.insertions :=
    Json.natBelow?_nat fits.1
  have deletions : Json.word? (.nat d.deletions) = some d.deletions :=
    Json.natBelow?_nat fits.2
  rw [ofJson?, toJson, Json.fields?_obj, Option.bind_eq_bind, Option.bind_some,
    required?_named rfl, required?_named rfl, insertions, deletions]
  rfl

namespace Change

/-- The line counts of a change, if it has any, are words. -/
def FitsWords (c : Change) : Prop :=
  ∀ d ∈ c.delta, d.FitsWords

/-- The members of a change as data. -/
def members (c : Change) : List (String × Json) :=
  [("path", .str c.path), ("kind", .str c.kind.name)] ++
    (c.previousPath.map fun path => ("previousPath", Json.str path)).toList ++
    (c.delta.map fun delta => ("delta", delta.toJson)).toList

theorem toJson_eq (c : Change) : c.toJson = .obj c.members := rfl

/-- The previous path has a member exactly when there is one, and so have the line counts. -/
theorem lookup_members (c : Change) :
    c.members.lookup "previousPath" = c.previousPath.map Json.str ∧
      c.members.lookup "delta" = c.delta.map LineDelta.toJson := by
  obtain ⟨path, kind, previousPath, delta⟩ := c
  cases previousPath <;> cases delta <;> exact ⟨rfl, rfl⟩

theorem ofJson?_toJson {c : Change} (fits : c.FitsWords) : ofJson? c.toJson = some c := by
  obtain ⟨previous, delta⟩ := c.lookup_members
  have delta_back : ∀ d ∈ c.delta, Json.optional? LineDelta.ofJson? d.toJson = some (some d) := by
    intro d there
    rw [Json.optional?_of_ne_null Json.noConfusion, LineDelta.ofJson?_toJson (fits d there)]
    rfl
  rw [ofJson?, toJson_eq, Json.fields?_obj, Option.bind_eq_bind, Option.bind_some,
    required?_named rfl, required?_named rfl, ChangeKind.constant?_name,
    orElse?_named_of_map previous fun _ _ => rfl, orElse?_named_of_map delta delta_back]
  rfl

end Change

theorem Node.ofJson?_toJson (n : Node) : ofJson? n.toJson = some n := by
  rw [ofJson?, toJson, Json.fields?_obj, Option.bind_eq_bind, Option.bind_some,
    required?_named rfl, required?_named rfl, required?_named rfl, required?_named rfl,
    required?_named rfl, required?_named rfl, required?_named rfl, NodeKind.constant?_name,
    Language.constant?_name, Json.strings?_strings, Json.strings?_strings, Risk.constant?_name]
  rfl

theorem Group.ofJson?_toJson (g : Group) : ofJson? g.toJson = some g := by
  rw [ofJson?, toJson, Json.fields?_obj, Option.bind_eq_bind, Option.bind_some,
    required?_named rfl, required?_named rfl, required?_named rfl, required?_named rfl,
    required?_named rfl, required?_named rfl, Json.strings?_strings, Risk.constant?_name,
    Json.strings?_strings]
  rfl

theorem Surface.ofJson?_toJson (s : Surface) : ofJson? s.toJson = some s := by
  rw [ofJson?, toJson, Json.fields?_obj, Option.bind_eq_bind, Option.bind_some,
    required?_named rfl, required?_named rfl, required?_named rfl, Json.strings?_strings,
    Json.strings?_strings]
  rfl

theorem Options.ofJson?_toJson {o : Options} (fits : o.maxSimpleFiles < UInt64.size) :
    ofJson? o.toJson = some o := by
  have count : Json.long? (.nat o.maxSimpleFiles) = some o.maxSimpleFiles :=
    Json.natBelow?_nat fits
  rw [ofJson?, toJson, Json.fields?_obj, Option.bind_eq_bind, Option.bind_some, ofFields?,
    orElse?_named_of_some rfl, orElse?_named_of_some rfl, orElse?_named_of_some rfl,
    orElse?_named_of_some rfl, orElse?_named_of_some rfl, orElse?_named_of_some rfl]
  dsimp only
  rw [ModeRequest.constant?_name, Json.strings?_strings, Json.strings?_strings, count]
  rfl

namespace Report

/-- The report with its elapsed time in whole milliseconds. -/
def wholeMillis (r : Report) : Report :=
  { r with elapsedNanos := r.elapsedNanos / nanosPerMilli * nanosPerMilli }

/-- The counts of a report are words of 64 bits. -/
def FitsWords (r : Report) : Prop :=
  r.totalFiles < UInt64.size ∧ r.elapsedNanos / nanosPerMilli < UInt64.size

theorem ofJson?_toJson {r : Report} (fits : r.FitsWords) :
    ofJson? r.toJson = some r.wholeMillis := by
  have total : Json.long? (.nat r.totalFiles) = some r.totalFiles := Json.natBelow?_nat fits.1
  have elapsed : Json.long? (.nat r.elapsedMillis) = some (r.elapsedNanos / nanosPerMilli) := by
    rw [elapsedMillis, Nat.mod_eq_of_lt fits.2]
    exact Json.natBelow?_nat fits.2
  have groups : Json.list? Group.ofJson? (.list Group.toJson r.groups) = some r.groups :=
    Json.list?_list fun g _ => g.ofJson?_toJson
  have cycles : Json.list? Json.strings? (.list Json.strings r.cycles) = some r.cycles :=
    Json.list?_list fun cycle _ => Json.strings?_strings cycle
  rw [ofJson?, toJson, Json.fields?_obj, Option.bind_eq_bind, Option.bind_some,
    required?_named rfl, required?_named rfl, required?_named rfl, required?_named rfl,
    required?_named rfl, required?_named rfl, required?_named rfl, required?_named rfl,
    Mode.constant?_name, groups, total, elapsed, Json.strings?_strings, cycles,
    Json.strings?_strings, Json.strings?_strings]
  rfl

end Report

/-- Every record is read back from its data as it was, whatever it holds and whichever of its fields
are absent. Only the elapsed time of a report loses what is less than a millisecond. -/
theorem Json.records_read_back :
    (∀ c : Change, c.FitsWords → Change.ofJson? c.toJson = some c) ∧
      (∀ n : Node, Node.ofJson? n.toJson = some n) ∧
      (∀ g : Group, Group.ofJson? g.toJson = some g) ∧
      (∀ s : Surface, Surface.ofJson? s.toJson = some s) ∧
      (∀ o : Options, o.maxSimpleFiles < UInt64.size → Options.ofJson? o.toJson = some o) ∧
      ∀ r : Report, r.FitsWords → Report.ofJson? r.toJson = some r.wholeMillis :=
  ⟨fun _ => Change.ofJson?_toJson, Node.ofJson?_toJson, Group.ofJson?_toJson,
    Surface.ofJson?_toJson, fun _ => Options.ofJson?_toJson, fun _ => Report.ofJson?_toJson⟩

/-- The greatest counts are read back, and an elapsed time is cut to its milliseconds. -/
theorem Json.records_read_back_of_greatest_counts :
    let change : Change := ⟨"b.ts", .renamed, some "a.ts", some ⟨4294967295, 0⟩⟩
    let options : Options := { Options.default with maxSimpleFiles := 18446744073709551615 }
    let report : Report := {
      mode := .complex
      groups :=
        [{ id := "group-1", files := ["b.ts"], risk := .medium, rationale := ""
           containsCycle := true, order := ["b.ts"] }]
      totalFiles := 18446744073709551615, elapsedNanos := 1999999, warnings := [""]
      cycles := [["b.ts"], []], excluded := [], validation := ["npm test"] }
    (change.FitsWords ∧ options.maxSimpleFiles < UInt64.size ∧ report.FitsWords) ∧
      Change.ofJson? change.toJson = some change ∧
      Options.ofJson? options.toJson = some options ∧
      Report.ofJson? report.toJson = some { report with elapsedNanos := 1000000 } := by
  intro change options report
  have change_fits : change.FitsWords := by
    rintro d ⟨⟩
    exact ⟨by decide, by decide⟩
  have options_fit : options.maxSimpleFiles < UInt64.size := by decide
  have report_fits : report.FitsWords := ⟨by decide, by decide⟩
  have cut : report.wholeMillis = { report with elapsedNanos := 1000000 } := by decide
  obtain ⟨changes, -, -, -, all_options, reports⟩ := Json.records_read_back
  exact ⟨⟨change_fits, options_fit, report_fits⟩, changes change change_fits,
    all_options options options_fit, cut ▸ reports report report_fits⟩

end CommitSplit
