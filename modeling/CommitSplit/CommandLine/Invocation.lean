import CommitSplit.CommandLine.Arguments
import CommitSplit.Options

/-!
# Invocations

What a command line asks for: a command, and the root below which it works. The root may be given in
front of the command and behind it, where it counts more.
-/

namespace CommitSplit.CommandLine

/-- Where the changes of a command come from. -/
structure Source where
  /-- Paths given as operands. -/
  paths : List String
  /-- A file that lists changes; a dash stands for the standard input. -/
  listing : Option String
  deriving DecidableEq, Inhabited

inductive Command
  | analyze (source : Source) (overrides : Overrides) (baseline : Option String) (json : Bool)
  | graph (source : Source) (json : Bool)
  | order (source : Source)
  | version

structure Invocation where
  root : String
  command : Command

namespace Invocation

/-- The root where none is given. -/
def defaultRoot : String :=
  "."

def rootOption : KnownOption :=
  ⟨"root", some 'r', true⟩

def verboseOption : KnownOption :=
  ⟨"verbose", some 'v', false⟩

/-- Options that every command knows. -/
def everywhere : List KnownOption :=
  [rootOption, verboseOption]

def valueOption (name : String) : KnownOption :=
  ⟨name, none, true⟩

def switch (name : String) : KnownOption :=
  ⟨name, none, false⟩

/-- The options of a command beyond those of every command; none for an unknown command. -/
def optionsOf? (command : String) : Option (List KnownOption) :=
  if command = "analyze" then
    some [valueOption "name-status", valueOption "mode", valueOption "exclude", switch "enhance",
      valueOption "baseline-ref", switch "json"]
  else if command = "graph" then some [valueOption "name-status", switch "json"]
  else if command = "order" then some [valueOption "name-status"]
  else if command = "version" then some []
  else none

/-- Options that may be given more than once. -/
def repeatable : List String :=
  ["exclude"]

/-- A command from its name and arguments. -/
def readCommand (name : String) (a : Arguments) : Option Command :=
  let source : Source := ⟨a.operands, a.value? "name-status"⟩
  let json := a.has "json"
  if name = "analyze" then do
    let mode ←
      match a.value? "mode" with
      | none => some none
      | some text => (ModeRequest.all.find? fun m => m.name = text).map some
    let baseline := a.value? "baseline-ref"
    let enhance := a.has "enhance" || baseline.isSome
    return .analyze source ⟨mode, a.values "exclude", enhance⟩ baseline json
  else if name = "graph" then some (.graph source json)
  else if name = "order" then some (.order source)
  else if name = "version" && a.operands = [] then some .version
  else none

/-- An invocation from the arguments of the program; none if they are not understood. -/
def read (arguments : List String) : Option Invocation := do
  let front ← readArguments everywhere true arguments
  match front.operands with
  | [] => none
  | name :: rest =>
    let behind ← readArguments (everywhere ++ (← optionsOf? name)) false rest
    let roots := behind.values "root" ++ front.values "root"
    if front.isSingle repeatable && behind.isSingle repeatable && "" ∉ roots then
      return ⟨roots.headD defaultRoot, ← readCommand name behind⟩
    else none

end Invocation

end CommitSplit.CommandLine
