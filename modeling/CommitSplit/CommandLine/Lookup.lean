import CommitSplit.CommandLine.Execution

/-!
# Where a command looks

A command is carried out over files that are known in advance. Which files those are depends on the
content of others: a listing names changed files, and a changed file names the files that it
imports. So what a command wants to know is found out in rounds.
-/

namespace CommitSplit.CommandLine

def Command.source? : Command → Option Source
  | analyze source .. => some source
  | graph source _ => some source
  | order source => some source
  | version => none

/-- Whether the command reads the standard input. -/
def Command.readsInput (c : Command) : Bool :=
  c.source?.any fun source => source.listing = some inputName

/-- The paths at which the scanner looks for the imports of a changed file. -/
def importLookups (files : Files) (root file : String) : List String :=
  match Scanner.content ⟨files, root⟩ file with
  | .ok text =>
    (Specifier.ofContent (Language.ofPath file) file text).flatMap fun specifier =>
      (specifier.candidates file).tried.map (Path.join root)
  | .error _ => []

/-- The paths at which an invocation looks, as far as the known files tell. -/
def Invocation.lookups (i : Invocation) (s : Surroundings) : List String :=
  match i.command.source? with
  | none => []
  | some source =>
    let listed :=
      match source.listing with
      | some name => (listedChanges s name).toOption.getD []
      | none => []
    let changed := (listed ++ source.paths.map (changeAt s i.root)).map Change.path
    FirstSeen.of <|
      [i.root, Path.join i.root configName] ++ source.listing.toList ++
        source.paths.map (Path.join i.root) ++ changed.map (Path.join i.root) ++
        changed.flatMap (importLookups s.files i.root)

/-- The rounds after which nothing new is wanted: listings, changed files, imported files. -/
def lookupRounds : Nat :=
  3

end CommitSplit.CommandLine
