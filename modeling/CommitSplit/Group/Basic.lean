import CommitSplit.Json.Decode
import CommitSplit.Risk

/-!
# Commit groups

A group is a set of changed files that belong into one commit.
-/

namespace CommitSplit

structure Group where
  id : String
  /-- The members in the order of the changes. -/
  files : List String
  risk : Risk
  rationale : String
  containsCycle : Bool
  /-- The members with dependencies first; the order of the changes if that is impossible. -/
  order : List String
  deriving DecidableEq, Inhabited

namespace Group

def toJson (g : Group) : Json :=
  .obj
    [("id", .str g.id), ("files", .strings g.files), ("estimatedRisk", .str g.risk.name),
      ("rationale", .str g.rationale), ("containsCycle", .bool g.containsCycle),
      ("commitOrder", .strings g.order)]

def ofJson? (j : Json) : Option Group := do
  let fields ← j.fields? 6
  let id ← fields.required? 0 "id" Json.str?
  let files ← fields.required? 1 "files" Json.strings?
  let risk ← fields.required? 2 "estimatedRisk" (Json.constant? Risk.all Risk.name)
  let rationale ← fields.required? 3 "rationale" Json.str?
  let containsCycle ← fields.required? 4 "containsCycle" Json.bool?
  let order ← fields.required? 5 "commitOrder" Json.strings?
  return { id, files, risk, rationale, containsCycle, order }

end Group

end CommitSplit
