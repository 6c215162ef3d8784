import CommitSplit.Analysis.Engine
import CommitSplit.CommandLine.Answer
import CommitSplit.CommandLine.Invocation
import CommitSplit.Config
import CommitSplit.Files.History
import CommitSplit.Imports.Scanner
import CommitSplit.Surface.Baseline

/-!
# Carrying out a command

A command reads its changes first, then the configuration, then the baselines of a revision; the
first trouble is the complaint. All that it sees of the world is its surroundings.
-/

namespace CommitSplit.CommandLine

/-- What a command can see. -/
structure Surroundings where
  files : Files
  input : List UInt8
  history : History

/-- The listing that stands for the standard input. -/
def inputName : String :=
  "-"

/-- The name of the configuration below the root. -/
def configName : String :=
  ".changegraph.toml"

/-- The changes of a listing. -/
def listedChanges (s : Surroundings) (name : String) : Except Complaint (List Change) := do
  let text ←
    if name = inputName then
      match Text.Utf8.text? s.input with
      | some text => pure text
      | none => throw .unreadInput
    else (s.files name).text.mapError fun _ => .unreadListing name
  (Change.ofListing text).mapError .badLine

/-- The change of a path that is given alone: a path that leads nowhere is deleted. -/
def changeAt (s : Surroundings) (root path : String) : Change :=
  if (s.files.below root path).isThere then Change.modified path else Change.deleted path

/-- The changes that are asked for: those of the listing, then the paths. -/
def changes (s : Surroundings) (root : String) (source : Source) :
    Except Complaint (List Change) := do
  let listed ←
    match source.listing with
    | some name => listedChanges s name
    | none => pure []
  let all := listed ++ source.paths.map (changeAt s root)
  if all = [] then throw .noChanges else return all

/-- The options of the configuration below the root; the defaults if there is none. -/
def configured (s : Surroundings) (root : String) : Except Complaint Options := do
  let file := Path.join root configName
  let status := s.files file
  if status.isFile then
    let text ← status.text.mapError fun _ => .unreadConfig file
    match Options.ofConfig? text with
    | some options => return options
    | none => throw (.badConfig file)
  else return Options.default

/-- Whether a baseline is taken of a changed file. -/
def hasBaseline (change : Change) : Bool :=
  change.kind ≠ .deleted && (Grammar.ofPath? change.path).isSome

/-- Adds the baseline of a change. A file that the revision does not hold exported nothing. -/
def addBaseline (revision : Revision) (b : Baselines) (change : Change) :
    Except Complaint Baselines :=
  match revision (change.previousPath.getD change.path) with
  | some bytes =>
    (b.insertText change.path (Text.Utf8.lenientText bytes)).mapError .baseline
  | none => .ok (b.insert change.path [])

/-- The baselines of the changes at a revision. -/
def baselinesAt (s : Surroundings) (root : String) (changes : List Change) (name : String) :
    Except Complaint Baselines :=
  if s.files root ≠ .directory then throw .noHistory
  else
    match s.history root name with
    | none => throw (.unknownRevision name)
    | some revision => (changes.filter hasBaseline).foldlM (addBaseline revision) Baselines.empty

/-- Runs to the end without cancellation. -/
def finish (run : Run α) : Except Complaint α :=
  (run.start ⟨false, false⟩).1.mapError .failed

/-- The engine over the files below the root. -/
def engineAt (s : Surroundings) (root : String) (baselines : Option Baselines) : Engine :=
  ⟨Scanner.source ⟨s.files, root⟩, baselines.map (SurfaceParser.ofFiles s.files root)⟩

/-- The graph of the files that are asked for. -/
def graphOf (s : Surroundings) (root : String) (source : Source) (baselines : Option Baselines) :
    Except Complaint Graph := do
  let changes ← changes s root source
  finish ((engineAt s root baselines).dependencyGraph (changes.map Change.path))

/-- Carries out an invocation. -/
def Invocation.execute (i : Invocation) (s : Surroundings) : Except Complaint Answer := do
  match i.command with
  | .analyze source overrides baseline json =>
    let changes ← changes s i.root source
    let options := overrides.apply (← configured s i.root)
    let baselines ←
      match baseline with
      | some name => baselinesAt s i.root changes name
      | none => pure Baselines.empty
    let report ← finish ((engineAt s i.root (some baselines)).analyze changes options)
    return .report report json
  | .graph source json => return .graph (← graphOf s i.root source (some Baselines.empty)) json
  | .order source =>
    match (← graphOf s i.root source none).leavesFirst with
    | .ok paths => return .order paths
    | .error (.cyclesBlockOrder cycles) => throw (.blocked cycles)
    | .error failure => throw (.failed failure)
  | .version => return .version

/-- Carries out a command line. -/
def execute (arguments : List String) (s : Surroundings) : Except Complaint Answer :=
  match Invocation.read arguments with
  | some invocation => invocation.execute s
  | none => .error .usage

end CommitSplit.CommandLine
