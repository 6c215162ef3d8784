import CommitSplit.Analysis.Assembly
import CommitSplit.Proofs.Analysis.Run
import CommitSplit.Proofs.Attempt

/-!
# Runs of an assembly

An assembly goes through a scan, the enhancement of its nodes and the construction of the graph.
What a node becomes depends on the answer for its own path only: cancellation can end the run, but
it does not change a node. So an assembly that ends with a graph has put it together from the answer
of the edge source and the answers of the parser by a plain function.
-/

namespace CommitSplit

namespace Assembly

variable {parser : SurfaceParser} {kinds : List (String × ChangeKind)} {node : Node}
  {nodes : List Node} {modules : List ScannedModule} {c c' : Cancellation}

/-- A node with what its parser says about it. -/
def enhancement (parser : SurfaceParser) (kinds : List (String × ChangeKind)) (node : Node) :
    Node × Option SkippedEnhancement :=
  if isEligible parser kinds node then node.enhanceOrKeep (parser.parse node.path).answer
  else (node, none)

/-- The nodes with what a parser says about them, if there is one. -/
def enhancements (parser : Option SurfaceParser) (kinds : List (String × ChangeKind))
    (nodes : List Node) : List (Node × Option SkippedEnhancement) :=
  match parser with
  | some parser => nodes.map (enhancement parser kinds)
  | none => nodes.map fun node => (node, none)

/-- A node with its surface, if there is a parser that knows it. -/
def surfaced (parser : Option SurfaceParser) (kinds : List (String × ChangeKind)) (node : Node) :
    Node :=
  match parser with
  | some parser => (enhancement parser kinds node).1
  | none => node

/-- A surface that was parsed is all that can change a node. -/
theorem surfaced_eq_or (parser : Option SurfaceParser) (kinds : List (String × ChangeKind))
    (node : Node) :
    surfaced parser kinds node = node ∨
      ∃ p s, parser = some p ∧ isEligible p kinds node = true ∧
        (p.parse node.path).answer = .ok s ∧ surfaced parser kinds node = node.withSurface s := by
  cases parser with
  | none => exact .inl rfl
  | some p =>
      rw [surfaced, enhancement]
      cases eligible : isEligible p kinds node with
      | false => exact .inl rfl
      | true =>
          cases answer : (p.parse node.path).answer with
          | error cause => exact .inl rfl
          | ok s => exact .inr ⟨p, s, rfl, eligible, answer, rfl⟩

theorem path_surfaced (parser : Option SurfaceParser) (kinds : List (String × ChangeKind))
    (node : Node) : (surfaced parser kinds node).path = node.path := by
  rcases surfaced_eq_or parser kinds node with same | ⟨p, s, -, -, -, same⟩
  · rw [same]
  · rw [same]
    rfl

theorem map_fst_enhancements (parser : Option SurfaceParser) (kinds : List (String × ChangeKind))
    (nodes : List Node) :
    (enhancements parser kinds nodes).map Prod.fst = nodes.map (surfaced parser kinds) := by
  cases parser <;> exact List.map_map

/-- A way to have nodes enhanced by a parser. -/
abbrev Stage :=
  SurfaceParser → List (String × ChangeKind) → List Node →
    Run (List (Node × Option SkippedEnhancement))

/-- One node after another. -/
def oneByOne : Stage :=
  fun parser kinds nodes => nodes.mapM (enhanceNode parser kinds)

/-- Enhances the nodes if there is a parser. -/
def enhanceAll (stage : Stage) (parser : Option SurfaceParser) (kinds : List (String × ChangeKind))
    (nodes : List Node) : Run (List (Node × Option SkippedEnhancement)) :=
  match parser with
  | some parser => stage parser kinds nodes
  | none => pure (nodes.map fun node => (node, none))

/-- The assembly of reports and enhanced nodes. -/
def put (kinds : List (String × ChangeKind)) (modules : List ScannedModule)
    (enhanced : List (Node × Option SkippedEnhancement)) : Assembly where
  graph := buildGraph kinds (collectReports modules) (enhanced.map Prod.fst)
  warnings :=
    ((kinds.map Prod.fst).filter fun path => ((collectReports modules).lookup path).isNone).map
        noEntryWarning ++
      (enhanced.filterMap Prod.snd).map SkippedEnhancement.message

end Assembly

open Assembly

/-- An assembly that enhances its nodes in some way. -/
def assembleWith (stage : Stage) (source : EdgeSource) (parser : Option SurfaceParser)
    (changes : List Change) (enhance : Bool) : Run Assembly := do
  let kinds := firstKinds changes
  Run.checkpoint
  let answer ← Run.consult (source (kinds.map Prod.fst))
  let modules ← Run.lift (answer.mapError Failure.graphBuild)
  let enhanced ← enhanceAll stage (if enhance then parser else none) kinds
    (plainNodes kinds (collectReports modules))
  Run.checkpoint
  return put kinds modules enhanced

/-- The stages of an assembly. -/
theorem assemble_eq (source : EdgeSource) (parser : Option SurfaceParser) (changes : List Change)
    (enhance : Bool) :
    assemble source parser changes enhance =
      assembleWith oneByOne source parser changes enhance := by
  unfold assemble assembleWith
  dsimp only
  refine congrArg _ (funext fun _ => congrArg _ (funext fun answer => ?_))
  cases answer with
  | error fault => rfl
  | ok modules =>
      change _ = pure modules >>= _
      simp only [pure_bind]
      cases enhance <;> cases parser <;> rfl

namespace Assembly

/-- A node is enhanced unless the run is cancelled already. -/
theorem start_enhanceNode (parser : SurfaceParser) (kinds : List (String × ChangeKind))
    (node : Node) (c : Cancellation) :
    (enhanceNode parser kinds node).start c =
      if c.stops then (.error .cancelled, c)
      else (.ok (enhancement parser kinds node),
        c.after (isEligible parser kinds node && (parser.parse node.path).cancels)) := by
  rw [enhanceNode, Run.start_bind, Run.start_checkpoint, enhancement]
  cases c.stops
  · cases isEligible parser kinds node
    · simp
    · rfl
  · rfl

/-- Whether the parser asks for cancellation at the surface of some node. -/
def anyCancels (parser : Option SurfaceParser) (kinds : List (String × ChangeKind))
    (nodes : List Node) : Bool :=
  match parser with
  | some parser =>
    nodes.any fun node => isEligible parser kinds node && (parser.parse node.path).cancels
  | none => false

/-- A run that enhances all nodes, or is stopped by what the enhancement does to the flag. -/
def Enhances (parser : Option SurfaceParser) (kinds : List (String × ChangeKind))
    (nodes : List Node) (run : Run (List (Node × Option SkippedEnhancement))) : Prop :=
  ∀ c : Cancellation,
    let c' := c.after (anyCancels parser kinds nodes)
    run.start c = (.ok (enhancements parser kinds nodes), c') ∨
      c'.stops = true ∧ run.start c = (.error .cancelled, c')

/-- What stops such a run stops the checkpoint behind it as well, so it does not matter when the
flag was raised. -/
theorem Enhances.bind_checkpoint {α : Type} {parser : Option SurfaceParser}
    {run : Run (List (Node × Option SkippedEnhancement))}
    (h : Enhances parser kinds nodes run)
    (rest : List (Node × Option SkippedEnhancement) → Run α) :
    (do let enhanced ← run; Run.checkpoint; rest enhanced) =
      (do
        Run.raise (anyCancels parser kinds nodes)
        Run.checkpoint
        rest (enhancements parser kinds nodes)) := by
  apply Run.ext
  intro c
  rw [Run.start_bind, Run.start_bind, Run.start_raise]
  rcases h c with passed | ⟨stopped, failed⟩
  · rw [passed]
  · rw [failed]
    dsimp only
    rw [Run.start_bind, Run.start_checkpoint, stopped]
    rfl

/-- A stage that enhances all nodes of every assembly that it does not stop. -/
def Stage.Sound (stage : Stage) : Prop :=
  ∀ parser kinds nodes, Enhances (some parser) kinds nodes (stage parser kinds nodes)

theorem Stage.sound_oneByOne : Stage.Sound oneByOne := by
  intro parser kinds nodes c
  dsimp only [oneByOne, enhancements, anyCancels]
  induction nodes generalizing c with
  | nil =>
      left
      rw [List.any_nil, Cancellation.after_false]
      rfl
  | cons node nodes ih =>
      rw [List.mapM_cons, Run.start_bind, start_enhanceNode, List.any_cons,
        ← Cancellation.after_after]
      cases stopped : c.stops with
      | true =>
          rw [Cancellation.after_of_stops stopped, Cancellation.after_of_stops stopped]
          exact .inr ⟨stopped, rfl⟩
      | false =>
          rw [if_neg Bool.false_ne_true]
          dsimp only
          rw [Run.start_bind]
          rcases ih (c.after (isEligible parser kinds node &&
            (parser.parse node.path).cancels)) with passed | ⟨stopped, failed⟩
          · rw [passed]
            exact .inl rfl
          · rw [failed]
            exact .inr ⟨stopped, rfl⟩

theorem Stage.Sound.enhances {stage : Stage} (sound : stage.Sound) (parser : Option SurfaceParser)
    (kinds : List (String × ChangeKind)) (nodes : List Node) :
    Enhances parser kinds nodes (enhanceAll stage parser kinds nodes) := by
  cases parser with
  | some parser => exact sound parser kinds nodes
  | none =>
      intro c
      left
      rw [anyCancels, Cancellation.after_false]
      rfl

end Assembly

/-- The whole course of an assembly: it is stopped before the scan, fails with the scan, or is
stopped behind the enhancement; otherwise it ends with a graph. -/
theorem Assembly.Stage.Sound.start_assembleWith {stage : Stage} (sound : stage.Sound)
    (source : EdgeSource) (parser : Option SurfaceParser) (changes : List Change) (enhance : Bool)
    (c : Cancellation) :
    (assembleWith stage source parser changes enhance).start c =
      if c.stops then (.error .cancelled, c)
      else
        let kinds := firstKinds changes
        let scan := source (kinds.map Prod.fst)
        match scan.answer with
        | .error fault => (.error (.graphBuild fault), c.after scan.cancels)
        | .ok modules =>
          let parser := if enhance then parser else none
          let nodes := plainNodes kinds (collectReports modules)
          let c' := c.after (scan.cancels || anyCancels parser kinds nodes)
          (if c'.stops then .error .cancelled
            else .ok (put kinds modules (enhancements parser kinds nodes)), c') := by
  rw [assembleWith]
  simp only [(sound.enhances _ _ _).bind_checkpoint, Run.start_bind, Run.start_checkpoint,
    Run.start_consult, Run.start_lift, Run.start_raise, Run.start_pure]
  cases c.stops with
  | true => rfl
  | false =>
      rw [if_neg Bool.false_ne_true, if_neg Bool.false_ne_true]
      dsimp only
      cases (source ((firstKinds changes).map Prod.fst)).answer with
      | error fault => rfl
      | ok modules =>
          simp only [Except.mapError, Cancellation.after_after]
          generalize c.after ((source ((firstKinds changes).map Prod.fst)).cancels || _) = c'
          cases c'.stops <;> rfl

/-- How the nodes are enhanced makes no difference to an assembly. -/
theorem Assembly.Stage.Sound.assembleWith_eq {stage : Stage} (sound : stage.Sound)
    (source : EdgeSource) (parser : Option SurfaceParser) (changes : List Change)
    (enhance : Bool) :
    assembleWith stage source parser changes enhance = assemble source parser changes enhance := by
  apply Run.ext
  intro c
  rw [assemble_eq, sound.start_assembleWith, sound_oneByOne.start_assembleWith]

/-- An assembly ends with a graph exactly when the scan succeeds and the flag stops it neither
before nor after the collaborators were asked. -/
theorem assemble_eq_ok_iff {source : EdgeSource} {parser : Option SurfaceParser}
    {changes : List Change} {enhance : Bool} {assembly : Assembly} {c c' : Cancellation} :
    (assemble source parser changes enhance).start c = (.ok assembly, c') ↔
      let kinds := firstKinds changes
      let scan := source (kinds.map Prod.fst)
      ∃ modules, scan.answer = .ok modules ∧
        let parser := if enhance then parser else none
        let nodes := plainNodes kinds (collectReports modules)
        (c.stops = false ∧ c' = c.after (scan.cancels || anyCancels parser kinds nodes) ∧
          c'.stops = false) ∧
        assembly = put kinds modules (enhancements parser kinds nodes) := by
  rw [assemble_eq, Stage.sound_oneByOne.start_assembleWith]
  cases c.stops with
  | true => simp
  | false =>
      rw [if_neg Bool.false_ne_true]
      dsimp only
      cases (source ((firstKinds changes).map Prod.fst)).answer with
      | error fault => simp
      | ok modules =>
          simp only [Except.ok.injEq, exists_eq_left', true_and, Prod.mk.injEq]
          generalize c.after ((source ((firstKinds changes).map Prod.fst)).cancels || _) = behind
          cases stopped : behind.stops with
          | true => exact ⟨nofun, by rintro ⟨⟨rfl, calm⟩, -⟩; rw [stopped] at calm; cases calm⟩
          | false =>
              rw [if_neg Bool.false_ne_true, Except.ok.injEq]
              constructor
              · rintro ⟨rfl, rfl⟩
                exact ⟨⟨rfl, stopped⟩, rfl⟩
              · rintro ⟨⟨rfl, -⟩, rfl⟩
                exact ⟨rfl, rfl⟩

/-! ## Parsers that never cancel -/

/-- A parser that may fail but never asks for cancellation. -/
def SurfaceParser.NeverCancels (parser : SurfaceParser) : Prop :=
  ∀ path, (parser.parse path).cancels = false

theorem SurfaceParser.neverCancels_ofTable (table : List (String × Surface)) :
    (ofTable table).NeverCancels :=
  fun _ => rfl

theorem Assembly.anyCancels_of_neverCancels {parser : Option SurfaceParser}
    (quiet : ∀ p ∈ parser, p.NeverCancels) (enhance : Bool) (kinds : List (String × ChangeKind))
    (nodes : List Node) : anyCancels (if enhance then parser else none) kinds nodes = false := by
  cases enhance with
  | false => rfl
  | true =>
      cases parser with
      | none => rfl
      | some p => simp [anyCancels, quiet p rfl _]

end CommitSplit
