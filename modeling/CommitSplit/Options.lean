import CommitSplit.Mode

/-!
# Options

What the caller of an analysis may choose. Options are read from data in which every one of them may
be left out.
-/

namespace CommitSplit

structure Options where
  mode : ModeRequest
  /-- Globs of files that take no part. -/
  exclude : List String
  /-- Whether modules are parsed for their surfaces. -/
  enhance : Bool
  /-- Commands that are handed on to the caller. -/
  validation : List String
  /-- The number of files up to which the simple mode is enough. -/
  maxSimpleFiles : Nat
  /-- Whether surfaces may be parsed at the same time. The outcome does not depend on it. -/
  parallel : Bool
  deriving DecidableEq, Inhabited

namespace Options

/-- Three files are few enough for the simple mode unless the caller says otherwise. -/
def defaultMaxSimpleFiles : Nat :=
  3

def default : Options :=
  { mode := .auto, exclude := [], enhance := false, validation := [],
    maxSimpleFiles := defaultMaxSimpleFiles, parallel := true }

def toJson (o : Options) : Json :=
  .obj
    [("mode", .str o.mode.name), ("excludeFiles", .strings o.exclude),
      ("enhanceWithAST", .bool o.enhance), ("validationCommands", .strings o.validation),
      ("simpleModeMaxFiles", .nat o.maxSimpleFiles), ("parallelEnhancement", .bool o.parallel)]

/-- How the values of options are read from values of some kind. -/
structure Reading (α : Type) where
  mode : α → Option ModeRequest
  texts : α → Option (List String)
  flag : α → Option Bool
  count : α → Option Nat

/-- Reads options from their fields; a missing one has its default. -/
def ofFields? (read : Reading α) (fields : Fields α) : Option Options := do
  let mode ← fields.orElse? 0 "mode" read.mode default.mode
  let exclude ← fields.orElse? 1 "excludeFiles" read.texts default.exclude
  let enhance ← fields.orElse? 2 "enhanceWithAST" read.flag default.enhance
  let validation ← fields.orElse? 3 "validationCommands" read.texts default.validation
  let maxSimpleFiles ← fields.orElse? 4 "simpleModeMaxFiles" read.count default.maxSimpleFiles
  let parallel ← fields.orElse? 5 "parallelEnhancement" read.flag default.parallel
  return { mode, exclude, enhance, validation, maxSimpleFiles, parallel }

def ofJson? (j : Json) : Option Options := do
  let mode := Json.constant? ModeRequest.all ModeRequest.name
  ofFields? ⟨mode, Json.strings?, Json.bool?, Json.long?⟩ (← j.fields? 6)

end Options

/-- Choices that take precedence over given options. -/
structure Overrides where
  mode : Option ModeRequest
  exclude : List String
  enhance : Bool
  deriving Inhabited

/-- The options with the overrides: a mode replaces, globs are added, and enhancing can only be
turned on. -/
def Overrides.apply (o : Overrides) (options : Options) : Options :=
  { options with
    mode := o.mode.getD options.mode
    exclude := options.exclude ++ o.exclude
    enhance := options.enhance || o.enhance }

end CommitSplit
