import CommitSplit.Proofs.Surface.Sighting
import CommitSplit.Surface.Script.Reader

/-!
# The names of a script, one after the other

A script is gone through twice: by its import and export statements first, and then by the calls
that load a module, wherever they are. An export statement names its module before the names that it
exports, and a pattern is gone through from its outside to its inside.

The reader of a script collects imports and exports apart from each other and leaves repetitions out
in the end. That is the same as noting the names one by one as they are met here.
-/

namespace CommitSplit.Script

open Sighting (imports exports)

/-! ## Patterns -/

namespace Binding

mutual

/-- The names in a pattern. -/
def sightings : Binding → List Sighting
  | name text => [.exported text]
  | parts ps => sightingsAll ps
  | withDefault target mentioned => target.sightings ++ mentioned.map .exported

def sightingsAll : List Binding → List Sighting
  | [] => []
  | p :: ps => p.sightings ++ sightingsAll ps

end

mutual

theorem sightings_eq : ∀ b : Binding, b.sightings = b.listed.map .exported
  | name _ => rfl
  | parts ps => sightingsAll_eq ps
  | withDefault target mentioned => by
      rw [sightings, listed, List.map_append, sightings_eq target]

theorem sightingsAll_eq : ∀ ps : List Binding, sightingsAll ps = (listedAll ps).map .exported
  | [] => rfl
  | p :: ps => by rw [sightingsAll, listedAll, List.map_append, sightings_eq p, sightingsAll_eq ps]

end

end Binding

/-! ## Statements -/

/-- The tokens behind the star of a generator. -/
def pastStar : List Token → List Token
  | ⟨.mark "*", _, _, _⟩ :: rest => rest
  | rest => rest

/-- What a declaration declares; a single name is a pattern too. -/
def declared (dialect : Dialect) : List Token → List Binding
  | [] => []
  | t :: ts =>
    match t.keyword? with
    | none => []
    | some text =>
      if text ∈ declarationModifiers then declared dialect ts
      else if text = "function" then [.name (dottedName ((pastStar ts).take 1))]
      else if text = "const" && ts.head?.bind Token.keyword? = some "enum" then
        [.name (dottedName ((ts.drop 1).take 1))]
      else if text = "const" || text = "let" || text = "var" then
        readDeclarators dialect (ts.length + 1) ts
      else if text ∈ namedDeclarations then [.name (dottedName ts)]
      else []

theorem declaredNames_eq (dialect : Dialect) (ts : List Token) :
    declaredNames dialect ts = (declared dialect ts).flatMap Binding.listed := by
  induction ts with
  | nil => rfl
  | cons t ts ih =>
      unfold declaredNames declared
      cases t.keyword? with
      | none => rfl
      | some text =>
          dsimp only
          split_ifs
          · exact ih
          · fun_cases pastStar ts with
            | case1 => rfl
            | case2 _ plain =>
                split
                · exact (plain _ _ _ _ rfl).elim
                · rfl
          all_goals rfl

/-- The module that a statement names. -/
def moduleSightings (source : Option String) : List Sighting :=
  (source.toList.map unquote).map .imported

/-- The names of a list in braces. -/
def listSightings (ts : List Token) : List Sighting :=
  let (names, rest) := nameList ts
  moduleSightings (fromClause rest) ++ (names.map unquote).map .exported

/-- Everything of a module, as it is or under one name. -/
def everythingSightings (ts : List Token) : List Sighting :=
  match ts with
  | ⟨.word "as", _, _, _⟩ :: name :: rest =>
    moduleSightings (fromClause rest) ++ name.written?.toList.map .exported
  | rest =>
    (fromClause rest).toList.flatMap fun written =>
      [.imported (unquote written), .exported ("* from " ++ unquote written)]

/-- An export statement, behind the word `export`. -/
def exportSightings (dialect : Dialect) (ts : List Token) : List Sighting :=
  match ts with
  | ⟨.word "default", _, _, _⟩ :: _ => [.exported "default"]
  | ⟨.opening _, _, _, _⟩ :: rest => listSightings rest
  | ⟨.mark "*", _, _, _⟩ :: rest => everythingSightings rest
  | ⟨.word "type", _, _, _⟩ :: ⟨.opening _, _, _, _⟩ :: rest => listSightings rest
  | ⟨.word "type", _, _, _⟩ :: ⟨.mark "*", _, _, _⟩ :: rest => everythingSightings rest
  | rest => (declared dialect (pastDecorators rest)).flatMap Binding.sightings

/-- An import statement, behind the word `import`; a call or a property begins none. -/
def importSightings (ts : List Token) : List Sighting :=
  match ts.head?.map Token.symbol with
  | some (.opening .paren) | some (.mark ".") => []
  | _ => moduleSightings (importSource 0 ts)

/-- The statements outside of all brackets, in order. -/
def statementSightings (dialect : Dialect) : Nat → List Token → List Sighting
  | _, [] => []
  | depth, t :: ts =>
    let rest := statementSightings dialect (t.depthAfter depth) ts
    if depth = 0 && t.keyword? = some "import" then importSightings ts ++ rest
    else if depth = 0 && t.keyword? = some "export" then exportSightings dialect ts ++ rest
    else rest

/-- The calls that load a module, in order. `before` holds the symbols in front, latest first. -/
def callSightings (before : List Symbol) : List Token → List Sighting
  | [] => []
  | t :: ts =>
    let rest := callSightings (t.symbol :: before) ts
    if (t.keyword? = some "require" || t.keyword? = some "import") &&
        before.head? ≠ some (.word "new") && !assignsImport before then
      moduleSightings (firstArgument? ts) ++ rest
    else rest

/-- The names of a script as they are met. -/
def sightings (dialect : Dialect) (content : List Char) : List Sighting :=
  let ts := tokens dialect content
  statementSightings dialect 0 ts ++ callSightings [] ts

/-! ## What the reader collects -/

@[simp] theorem imports_moduleSightings (source : Option String) :
    imports (moduleSightings source) = source.toList.map unquote :=
  Sighting.imports_map_imported _

@[simp] theorem exports_moduleSightings (source : Option String) :
    exports (moduleSightings source) = [] :=
  Sighting.exports_map_imported _

/-- An export statement names its module first. -/
def Export.sightings (e : Export) : List Sighting :=
  moduleSightings e.source ++ e.names.map .exported

theorem everythingSightings_eq (dialect : Dialect) {t : Token} (star : t.symbol = .mark "*")
    (ts : List Token) : everythingSightings ts = (readExport dialect (t :: ts)).sightings := by
  obtain ⟨symbol, position, onNewLine, afterComment⟩ := t
  obtain rfl : symbol = .mark "*" := star
  rw [readExport]
  fun_cases everythingSightings ts
  · rfl
  · cases h : fromClause ts <;> simp [h, Export.sightings, moduleSightings]

/-- The names of a declaration are met as they are listed. -/
theorem declared_sightings (dialect : Dialect) (ts : List Token) :
    (declared dialect ts).flatMap Binding.sightings =
      (declaredNames dialect ts).map .exported := by
  rw [declaredNames_eq, List.map_flatMap]
  exact List.flatMap_congr fun b _ => b.sightings_eq

theorem exportSightings_eq (dialect : Dialect) (ts : List Token) :
    exportSightings dialect ts = (readExport dialect ts).sightings := by
  fun_cases exportSightings dialect ts
  · rfl
  · rfl
  · exact everythingSightings_eq dialect rfl _
  · rfl
  · rename_i position onNewLine afterComment rest
    exact everythingSightings_eq dialect
      (t := ⟨.mark "*", position, onNewLine, afterComment⟩) rfl rest
  · rw [declared_sightings, readExport] <;> first | rfl | assumption

theorem statementSightings_spec (dialect : Dialect) (depth : Nat) (ts : List Token) :
    imports (statementSightings dialect depth ts) = (readStatements dialect depth ts).1 ∧
      exports (statementSightings dialect depth ts) = (readStatements dialect depth ts).2 := by
  induction ts generalizing depth with
  | nil => exact ⟨rfl, rfl⟩
  | cons t ts ih =>
      obtain ⟨imports_eq, exports_eq⟩ := ih (t.depthAfter depth)
      rw [statementSightings, readStatements]
      split_ifs
      · rw [importSightings]
        split <;> simp [*]
      · rw [exportSightings_eq, Export.sightings]
        simp [imports_eq, exports_eq]
      · exact ⟨imports_eq, exports_eq⟩

theorem callSightings_spec (before : List Symbol) (ts : List Token) :
    imports (callSightings before ts) = loadedModules before ts ∧
      exports (callSightings before ts) = [] := by
  induction ts generalizing before with
  | nil => exact ⟨rfl, rfl⟩
  | cons t ts ih =>
      obtain ⟨imports_eq, exports_eq⟩ := ih (t.symbol :: before)
      rw [callSightings, loadedModules]
      split_ifs
      · simp [imports_eq, exports_eq]
      · exact ⟨imports_eq, exports_eq⟩

theorem read_eq_foldl_note (dialect : Dialect) (content : List Char) :
    read dialect content = (sightings dialect content).foldl SurfaceNames.note .empty := by
  obtain ⟨stated, exported⟩ := statementSightings_spec dialect 0 (tokens dialect content)
  obtain ⟨loaded, nothing⟩ := callSightings_spec [] (tokens dialect content)
  rw [SurfaceNames.foldl_note_eq, sightings, Sighting.imports_append, Sighting.exports_append,
    stated, exported, loaded, nothing, List.append_nil]
  rfl

end CommitSplit.Script
