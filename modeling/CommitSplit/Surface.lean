import CommitSplit.Json.Decode

/-!
# Module surfaces

The surface of a module is what it imports and exports, together with the verdict whether its
exports differ from those it had before.
-/

namespace CommitSplit

structure Surface where
  imports : List String
  exports : List String
  changed : Bool
  deriving DecidableEq, Inhabited

namespace Surface

def toJson (s : Surface) : Json :=
  .obj
    [("imports", .strings s.imports), ("exports", .strings s.exports),
      ("apiSurfaceChanged", .bool s.changed)]

def ofJson? (j : Json) : Option Surface := do
  let fields ← j.fields? 3
  let imports ← fields.required? 0 "imports" Json.strings?
  let exports ← fields.required? 1 "exports" Json.strings?
  let changed ← fields.required? 2 "apiSurfaceChanged" Json.bool?
  return { imports, exports, changed }

end Surface

end CommitSplit
