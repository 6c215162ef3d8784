import CommitSplit.CommandLine.Lookup

/-!
# The program

Looks up the files that the command wants to know, carries out the command and writes what it
answers. No earlier revisions are known to the program.
-/

open CommitSplit CommandLine

namespace CommitSplit.Program

/-- What was looked up so far. -/
abbrev Known :=
  List (String × FileStatus)

/-- The files as they are known; one that was not looked up counts as missing. -/
def filesOf (known : Known) : Files :=
  fun path => (known.lookup path).getD (.unreachable .missing)

/-- Why a file could not be read. -/
def statusOfError (e : IO.Error) : FileStatus :=
  match e with
  | .noFileOrDirectory .. => .unreachable .missing
  | .inappropriateType none .. => .directory
  | .inappropriateType (some _) .. => .unreachable .throughFile
  | .invalidArgument .. => .unreachable .nameTooLong
  | _ => .unreachable .denied

/-- Looks up one path. -/
def lookUp (path : String) : IO FileStatus := do
  if '\x00' ∈ path.toList then return .unreachable .nulInName
  try
    return .file (← IO.FS.readBinFile path).toList
  catch e =>
    return statusOfError e

/-- All that can be read from a stream. -/
partial def readAll (stream : IO.FS.Stream) (bytes : List UInt8) : IO (List UInt8) := do
  let more ← stream.read 65536
  if more.isEmpty then return bytes else readAll stream (bytes ++ more.toList)

/-- What surrounds an invocation, found out in rounds. -/
def surroundingsOf (i : Invocation) : IO Surroundings := do
  let input ← if i.command.readsInput then readAll (← IO.getStdin) [] else pure []
  let mut known : Known := []
  for _ in List.range lookupRounds do
    for path in i.lookups ⟨filesOf known, input, History.none⟩ do
      if (known.lookup path).isNone then known := (path, ← lookUp path) :: known
  return ⟨filesOf known, input, History.none⟩

/-- Carries out an invocation and takes the time. -/
def answerOf (i : Invocation) : IO (Except Complaint Answer) := do
  let surroundings ← surroundingsOf i
  let before ← IO.monoNanosNow
  match i.execute surroundings with
  | .error complaint => return .error complaint
  | .ok answer => return .ok (answer.timed ((← IO.monoNanosNow) - before))

end CommitSplit.Program

def main (arguments : List String) : IO UInt32 := do
  let ending ←
    match Invocation.read arguments with
    | some invocation => Program.answerOf invocation
    | none => pure (.error .usage)
  match ending with
  | .ok answer =>
    for line in answer.lines do IO.println line
    return 0
  | .error complaint =>
    for line in complaint.lines do IO.eprintln line
    return complaint.status.toUInt32
