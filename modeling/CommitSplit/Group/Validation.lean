import CommitSplit.Failure
import CommitSplit.Group.Formation

/-!
# Validating groups

Groups are valid when they partition the expected files and each reports the risk of its members.
The first defect in the order of the groups is the one reported, and missing files come last.
-/

namespace CommitSplit.Group

/-- The files seen so far, each with the group that holds it. -/
abbrev Owners :=
  List (String × String)

/-- Checks that a file is expected and has no owner, and enters it. -/
def claim (expected : List String) (id : String) (owners : Owners) (file : String) :
    Except GroupDefect Owners :=
  if file ∉ expected then .error (.stranger id file)
  else
    match owners.lookup file with
    | some owner => .error (.shared file owner id)
    | none => .ok ((file, id) :: owners)

/-- Checks one group behind those whose files are owned. -/
def checkOne (graph : Option Graph) (expected : List String) (owners : Owners) (group : Group) :
    Except GroupDefect Owners :=
  if group.files = [] then .error (.noFiles group.id)
  else
    match group.files.foldlM (claim expected group.id) owners with
    | .error defect => .error defect
    | .ok owners =>
      let risk := aggregateRisk graph group.files
      if group.risk ≠ risk then .error (.wrongRisk group.id group.risk risk) else .ok owners

/-- Checks that the groups partition the expected files and report their risk. -/
def check (graph : Option Graph) (expected : List String) (groups : List Group) :
    Except GroupDefect Unit :=
  match groups.foldlM (checkOne graph expected) [] with
  | .error defect => .error defect
  | .ok owners =>
    let missing := expected.filter fun path => (owners.lookup path).isNone
    if missing = [] then .ok () else .error (.missing missing)

/-- Checks groups as the last stage of an analysis. -/
def validate (graph : Option Graph) (expected : List String) (groups : List Group) :
    Except Failure Unit :=
  (check graph expected groups).mapError .grouping

end CommitSplit.Group
