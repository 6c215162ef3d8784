import CommitSplit.Proofs.Analysis.Engine
import CommitSplit.Proofs.Analysis.Turns

/-!
# Cancelled analyses

A flag can be up before an analysis, and it can be raised by the scan or by any call of the parser.
Whenever that happens there is a checkpoint left to come, so an analysis with the flag up has no
report. Only a scan that fails ends the analysis before the next checkpoint. With the flag down the
run is the one that nobody watches.
-/

namespace CommitSplit

open Assembly (Stage Schedule oneByOne enhanceInterleaved anyCancels)

theorem Assembly.anyCancels_eq_true_iff {parser : Option SurfaceParser} {enhance : Bool}
    {kinds : List (String × ChangeKind)} {nodes : List Node} :
    anyCancels (if enhance then parser else none) kinds nodes = true ↔
      enhance = true ∧ ∃ p ∈ parser, ∃ node ∈ nodes,
        isEligible p kinds node = true ∧ (p.parse node.path).cancels = true := by
  cases enhance with
  | false => simp [anyCancels]
  | true => cases parser <;> simp [anyCancels]

namespace Engine

variable {engine : Engine} {changes : List Change} {options : Options} {mode : Mode}
  {exclusion : Exclusion} {set : ChangeSet} {c : Cancellation}

/-! ## Analyses that enhance their nodes in some way -/

/-- The graph that the mode asks for, with nodes enhanced in some way. -/
def graphForWith (stage : Stage) (engine : Engine) (mode : Mode) (changes : List Change)
    (options : Options) : Run (Option Graph × List String) := do
  match mode with
  | .simple => return (none, [])
  | .complex =>
    let unparsed := options.enhance && engine.parser.isNone
    let assembly ← assembleWith stage engine.source engine.parser changes options.enhance
    return (some assembly.graph,
      (if unparsed then [noParserWarning] else []) ++ assembly.warnings)

/-- The last stages of an analysis behind its last checkpoint. -/
def conclude (exclusion : Exclusion) (set : ChangeSet) (options : Options) (graph : Option Graph)
    (graphWarnings : List String) : Except Failure Report := do
  let groups := groupsOf exclusion graph set.changes
  Group.validate graph set.paths groups
  let cycles := (graph.map Graph.cycles).getD []
  return {
    mode := modeFor set options, groups, totalFiles := set.changes.length, elapsedNanos := 0
    warnings := selectionWarnings set ++ graphWarnings ++ outcomeWarnings cycles groups
    cycles, excluded := set.excluded, validation := options.validation }

/-- An analysis that enhances nodes in some way. -/
def analyzeWith (stage : Stage) (engine : Engine) (changes : List Change) (options : Options) :
    Run Report := do
  Run.checkpoint
  let exclusion ← Run.lift (Exclusion.ofPatterns options.exclude)
  let set := ChangeSet.collect exclusion changes
  let (graph, graphWarnings) ← engine.graphForWith stage (modeFor set options) set.changes options
  Run.checkpoint
  Run.checkpoint
  Run.lift (conclude exclusion set options graph graphWarnings)

theorem graphFor_eq (engine : Engine) (mode : Mode) (changes : List Change) (options : Options) :
    engine.graphFor mode changes options =
      engine.graphForWith oneByOne mode changes options := by
  cases mode with
  | simple => rfl
  | complex => simp only [graphFor, graphForWith, assemble_eq]

/-- The stages of an analysis. -/
theorem analyze_eq (engine : Engine) (changes : List Change) (options : Options) :
    engine.analyze changes options = engine.analyzeWith oneByOne changes options := by
  unfold analyze analyzeWith
  dsimp only
  simp only [graphFor_eq, conclude]
  refine congrArg _ (funext fun _ => congrArg _ (funext fun exclusion => ?_))
  refine congrArg _ (funext fun found => ?_)
  refine congrArg _ (funext fun _ => congrArg _ (funext fun _ => ?_))
  cases Group.validate found.1 _ _ <;> rfl

/-! ## The course of an analysis -/

/-- The scan for selected changes. -/
def scanOf (engine : Engine) (changes : List Change) : Outcome (List ScannedModule) :=
  engine.source ((Assembly.firstKinds changes).map Prod.fst)

/-- What the graph of an analysis is when the run is not stopped, and whether a collaborator asks
for cancellation on the way to it. -/
def graphed (engine : Engine) (mode : Mode) (changes : List Change) (options : Options) :
    Except Failure (Option Graph × List String) × Bool :=
  match mode with
  | .simple => (.ok (none, []), false)
  | .complex =>
    let scan := engine.scanOf changes
    match scan.answer with
    | .error fault => (.error (.graphBuild fault), scan.cancels)
    | .ok modules =>
      let kinds := Assembly.firstKinds changes
      let parser := if options.enhance then engine.parser else none
      let nodes := Assembly.plainNodes kinds (Assembly.collectReports modules)
      let assembly := Assembly.put kinds modules (Assembly.enhancements parser kinds nodes)
      (.ok (some assembly.graph,
        (if options.enhance && engine.parser.isNone then [noParserWarning] else []) ++
          assembly.warnings),
        scan.cancels || anyCancels parser kinds nodes)

theorem start_graphForWith {stage : Stage} (sound : stage.Sound) (calm : c.stops = false) :
    (engine.graphForWith stage mode changes options).start c =
      match engine.graphed mode changes options with
      | (.error failure, cancels) => (.error failure, c.after cancels)
      | (.ok found, cancels) =>
        (if (c.after cancels).stops then .error .cancelled else .ok found, c.after cancels) := by
  cases mode with
  | simple => simp [graphForWith, graphed, calm]
  | complex =>
      rw [graphForWith, graphed, scanOf]
      dsimp only
      rw [Run.start_bind, sound.start_assembleWith, calm, if_neg Bool.false_ne_true]
      dsimp only
      cases (engine.source ((Assembly.firstKinds changes).map Prod.fst)).answer with
      | error fault => rfl
      | ok modules =>
          dsimp only
          generalize c.after (_ || _) = behind
          cases behind.stops <;> rfl

/-- The whole course of an analysis: between the first checkpoint and the last one only the patterns
or the scan can end it. -/
theorem start_analyzeWith {stage : Stage} (sound : stage.Sound) (engine : Engine)
    (changes : List Change) (options : Options) (c : Cancellation) :
    (engine.analyzeWith stage changes options).start c =
      if c.stops then (.error .cancelled, c)
      else
        match Exclusion.ofPatterns options.exclude with
        | .error failure => (.error failure, c)
        | .ok exclusion =>
          let set := ChangeSet.collect exclusion changes
          match engine.graphed (modeFor set options) set.changes options with
          | (.error failure, cancels) => (.error failure, c.after cancels)
          | (.ok (graph, warnings), cancels) =>
            (if (c.after cancels).stops then .error .cancelled
              else conclude exclusion set options graph warnings, c.after cancels) := by
  rw [analyzeWith, Run.start_bind, Run.start_checkpoint]
  cases calm : c.stops with
  | true => rfl
  | false =>
      rw [if_neg Bool.false_ne_true, if_neg Bool.false_ne_true]
      dsimp only
      rw [Run.start_bind, Run.start_lift]
      cases Exclusion.ofPatterns options.exclude with
      | error failure => rfl
      | ok exclusion =>
          dsimp only
          rw [Run.start_bind, start_graphForWith sound calm]
          obtain ⟨_ | ⟨graph, warnings⟩, cancels⟩ :=
            engine.graphed (modeFor (ChangeSet.collect exclusion changes) options)
              (ChangeSet.collect exclusion changes).changes options
          · rfl
          · cases stopped : (c.after cancels).stops <;>
              simp [Run.start_bind, stopped]

/-- How nodes are enhanced makes no difference to an analysis. -/
theorem analyzeWith_eq_analyze {stage : Stage} (sound : stage.Sound) (engine : Engine)
    (changes : List Change) (options : Options) :
    engine.analyzeWith stage changes options = engine.analyze changes options := by
  apply Run.ext
  intro c
  rw [analyze_eq, start_analyzeWith sound, start_analyzeWith Stage.sound_oneByOne]

/-! ## Cancellation -/

/-- The edge source is asked for a selection of the changes. -/
structure Asks (changes : List Change) (options : Options) (set : ChangeSet) : Prop where
  selected : ∃ exclusion, Exclusion.ofPatterns options.exclude = .ok exclusion ∧
    set = ChangeSet.collect exclusion changes
  complex : modeFor set options = .complex

/-- The ways in which an analysis is cancelled, with the failure that each of them ends in. -/
inductive Interrupts (engine : Engine) (changes : List Change) (options : Options)
    (raised : Bool) : Failure → Prop
  | before : raised = true → Interrupts engine changes options raised .cancelled
  /-- A scan that fails is the only step without a checkpoint behind it. -/
  | failed_scan {set : ChangeSet} {fault : Fault} : raised = false → Asks changes options set →
      (engine.scanOf set.changes).answer = .error fault →
      (engine.scanOf set.changes).cancels = true →
      Interrupts engine changes options raised (.graphBuild fault)
  | scan {set : ChangeSet} {modules : List ScannedModule} : raised = false →
      Asks changes options set → (engine.scanOf set.changes).answer = .ok modules →
      (engine.scanOf set.changes).cancels = true →
      Interrupts engine changes options raised .cancelled
  | parse {set : ChangeSet} {modules : List ScannedModule} {parser : SurfaceParser} {node : Node} :
      raised = false → Asks changes options set →
      (engine.scanOf set.changes).answer = .ok modules →
      (engine.scanOf set.changes).cancels = false → options.enhance = true →
      parser ∈ engine.parser →
      node ∈ Assembly.plainNodes (Assembly.firstKinds set.changes)
        (Assembly.collectReports modules) →
      Assembly.isEligible parser (Assembly.firstKinds set.changes) node = true →
      (parser.parse node.path).cancels = true →
      Interrupts engine changes options raised .cancelled

variable {failure : Failure}

theorem interrupts_true_iff :
    Interrupts engine changes options true failure ↔ failure = .cancelled := by
  constructor
  · intro h
    cases h <;> first | rfl | contradiction
  · rintro rfl
    exact .before rfl

/-- The failure of an analysis whose graph comes out like this when a collaborator asks for
cancellation. -/
def interruption (found : Except Failure (Option Graph × List String)) : Failure :=
  match found with
  | .error failure => failure
  | .ok _ => .cancelled

theorem not_interrupts_of_patterns {bad : Failure}
    (patterns : Exclusion.ofPatterns options.exclude = .error bad) :
    ¬ Interrupts engine changes options false failure := by
  have unasked {set : ChangeSet} (asks : Asks changes options set) : False := by
    obtain ⟨exclusion, readable, -⟩ := asks.selected
    rw [patterns] at readable
    cases readable
  intro h
  cases h with
  | before up => cases up
  | failed_scan _ asks _ _ => exact unasked asks
  | scan _ asks _ _ => exact unasked asks
  | parse _ asks _ _ _ _ _ _ _ => exact unasked asks

/-- The options decide the selection, so there is only one for which the source can be asked. -/
theorem Asks.unique {set : ChangeSet} (asks : Asks changes options set)
    (patterns : Exclusion.ofPatterns options.exclude = .ok exclusion) :
    set = ChangeSet.collect exclusion changes ∧
      modeFor (ChangeSet.collect exclusion changes) options = .complex := by
  obtain ⟨⟨exclusion', readable, rfl⟩, complex⟩ := asks
  rw [patterns] at readable
  cases readable
  exact ⟨rfl, complex⟩

/-- A source or a parser that raises the flag does so in one of the ways. -/
theorem Asks.interrupts {set : ChangeSet} (asks : Asks changes options set)
    (cancels : (engine.graphed .complex set.changes options).2 = true) :
    Interrupts engine changes options false
      (interruption (engine.graphed .complex set.changes options).1) := by
  rw [Engine.graphed] at cancels ⊢
  dsimp only at cancels ⊢
  cases answer : (engine.scanOf set.changes).answer with
  | error fault =>
      rw [answer] at cancels
      exact .failed_scan rfl asks answer cancels
  | ok modules =>
      rw [answer] at cancels
      cases calm : (engine.scanOf set.changes).cancels with
      | true => exact .scan rfl asks answer calm
      | false =>
          dsimp only at cancels
          rw [calm, Bool.false_or, Assembly.anyCancels_eq_true_iff] at cancels
          obtain ⟨enhance, parser, known, node, hnode, eligible, cancels⟩ := cancels
          exact .parse rfl asks answer calm enhance known hnode eligible cancels

/-- A flag that is down before the analysis is raised on the way to the graph or not at all. -/
theorem interrupts_false_iff (patterns : Exclusion.ofPatterns options.exclude = .ok exclusion) :
    let set := ChangeSet.collect exclusion changes
    let graphed := engine.graphed (modeFor set options) set.changes options
    Interrupts engine changes options false failure ↔
      graphed.2 = true ∧ failure = interruption graphed.1 := by
  intro set graphed
  constructor
  · intro h
    cases h with
    | before up => cases up
    | failed_scan _ asks answer cancels =>
        obtain ⟨rfl, complex⟩ := asks.unique patterns
        simp [graphed, set, complex, Engine.graphed, answer, cancels, interruption]
    | scan _ asks answer cancels =>
        obtain ⟨rfl, complex⟩ := asks.unique patterns
        simp [graphed, set, complex, Engine.graphed, answer, cancels, interruption]
    | parse _ asks answer calm enhance known hnode eligible cancels =>
        obtain ⟨rfl, complex⟩ := asks.unique patterns
        have some_cancels := Assembly.anyCancels_eq_true_iff.mpr
          ⟨enhance, _, known, _, hnode, eligible, cancels⟩
        simp [graphed, set, complex, Engine.graphed, answer, some_cancels, interruption]
  · rintro ⟨cancels, rfl⟩
    dsimp only [graphed] at cancels ⊢
    cases mode_eq : modeFor set options with
    | simple =>
        rw [mode_eq] at cancels
        cases cancels
    | complex =>
        rw [mode_eq] at cancels
        have asks : Asks changes options set := ⟨⟨exclusion, patterns, rfl⟩, mode_eq⟩
        exact asks.interrupts cancels

/-- The stage that the options ask for, with a schedule for the case that nodes are enhanced at the
same time. -/
def stageOf (options : Options) (schedule : ∀ size, Schedule size) : Stage :=
  if options.parallel then enhanceInterleaved schedule else oneByOne

theorem sound_stageOf (options : Options) (schedule : ∀ size, Schedule size) :
    (stageOf options schedule).Sound := by
  unfold stageOf
  split
  · exact Stage.sound_enhanceInterleaved schedule
  · exact Stage.sound_oneByOne

/-- However nodes are enhanced, and wherever the flag is raised, the analysis has no report: it is
cancelled, or it fails with the scan that raised the flag. With the flag down to the end it ends as
one that nobody can cancel. When nodes are enhanced one after another, the call that raises the flag
is the last. -/
theorem analyze_interrupted (engine : Engine) (changes : List Change) (options : Options)
    (schedule : ∀ size, Schedule size) (raised : Bool) :
    let ended := (engine.analyze changes options).start ⟨true, raised⟩
    engine.analyzeWith (stageOf options schedule) changes options =
        engine.analyze changes options ∧
      (∀ failure, Interrupts engine changes options raised failure → ended.1 = .error failure) ∧
      (ended.2.raised = true ↔ ∃ failure, Interrupts engine changes options raised failure) ∧
      (ended.2.raised = false →
        ended.1 = ((engine.analyze changes options).start ⟨false, false⟩).1) ∧
      ∀ parser kinds nodes raised,
        let workers := (Schedule.sequential nodes.length).workers parser kinds nodes ⟨true, raised⟩
        (oneByOne parser kinds nodes).start ⟨true, raised⟩ = (workers.outcome, workers.flag) ∧
          Assembly.Workers.CallsEnd parser workers.calls := by
  intro ended
  refine ⟨analyzeWith_eq_analyze (sound_stageOf options schedule) engine changes options, ?_⟩
  rw [← and_assoc, ← and_assoc]
  refine ⟨?_, fun parser kinds nodes raised => ⟨?_, ?_⟩⟩
  · dsimp only [ended]
    rw [and_assoc, analyze_eq, start_analyzeWith Stage.sound_oneByOne,
      start_analyzeWith Stage.sound_oneByOne]
    cases raised with
    | true => simp [interrupts_true_iff, Cancellation.stops]
    | false =>
        simp only [Cancellation.stops, Bool.and_false, Bool.false_eq_true, if_false]
        cases patterns : Exclusion.ofPatterns options.exclude with
        | error bad => simp [not_interrupts_of_patterns patterns]
        | ok exclusion =>
            simp only [interrupts_false_iff patterns]
            obtain ⟨found, cancels⟩ := engine.graphed
              (modeFor (ChangeSet.collect exclusion changes) options)
              (ChangeSet.collect exclusion changes).changes options
            cases found <;> cases cancels <;> simp [interruption]
  · rw [← Assembly.enhanceInterleaved_sequential]
    rfl
  · exact Assembly.Workers.callsEnd_sequential rfl

/-- Cancellation during the last call of the parser is noticed behind it. -/
theorem analyze_interrupted_by_last_call :
    let parser : SurfaceParser := ⟨fun _ => true, fun path => ⟨.ok ⟨[], [], true⟩, path = "b.ts"⟩⟩
    let engine : Engine := ⟨.ofTable [("a.ts", ["b.ts"])], some parser⟩
    let changes := [.modified "a.ts", .modified "b.ts", .deleted "c.ts"]
    let options := { Options.default with enhance := true, parallel := false }
    let run := fun raised => (engine.analyze changes options).start ⟨true, raised⟩
    Interrupts engine changes options false .cancelled ∧
      run false = (.error .cancelled, ⟨true, true⟩) ∧ (run true).1 = .error .cancelled := by
  intro parser engine changes options run
  let set := ChangeSet.collect .empty changes
  let modules : List ScannedModule := [⟨"a.ts", ["b.ts"]⟩, ⟨"b.ts", []⟩, ⟨"c.ts", []⟩]
  have asks : Asks changes options set := ⟨⟨.empty, rfl, rfl⟩, by decide⟩
  have answer : (engine.scanOf set.changes).answer = .ok modules := by decide
  have there : Node.new "b.ts" ∈ Assembly.plainNodes (Assembly.firstKinds set.changes)
      (Assembly.collectReports modules) := by decide
  have eligible : Assembly.isEligible parser (Assembly.firstKinds set.changes) (.new "b.ts") =
      true := by decide
  have struck : Interrupts engine changes options false .cancelled :=
    .parse rfl asks answer rfl rfl rfl there eligible (by decide)
  have late := analyze_interrupted engine changes options Schedule.sequential false
  have early := analyze_interrupted engine changes options Schedule.sequential true
  exact ⟨struck, Prod.ext (late.2.1 _ struck) (by decide), early.2.1 _ (.before rfl)⟩

end Engine

end CommitSplit
