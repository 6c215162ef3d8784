import CommitSplit.Proofs.Surface.Names
import CommitSplit.Proofs.Surface.Script.Expression
import CommitSplit.Proofs.Surface.Script.Pattern

/-!
# Names that exported variables bind

A declaration of variables has one pattern after the other, each with a type and an initial value or
without. The surface of a script lists the names of these patterns in order, and with them every
name that a default mentions.
-/

namespace CommitSplit.Script

variable {t u : Token} {ts us more : List Token} {p : Binding} {ps : List Binding} {types : Bool}
  {dialect : Dialect} {text : String}

/-! ## The grammar -/

/-- No such mark stands in front. -/
def Lacks (text : String) (ts : List Token) : Prop :=
  ∀ t ∈ ts.head?, t.symbol ≠ .mark text

/-- The mark of a variable that gets its value elsewhere, if it stands in front of some tokens. -/
inductive IsPromise : List Token → List Token → Prop
  | none {more : List Token} : Lacks "!" more → IsPromise [] more
  | mark {t : Token} {more : List Token} : t.symbol = .mark "!" → IsPromise [t] more

/-- A type annotation, if there is one. -/
inductive IsTyping : List Token → List Token → Prop
  | none {more : List Token} : Lacks ":" more → IsTyping [] more
  | typed {complete : Bool} {t : Token} {ts more : List Token} : t.symbol = .mark ":" →
      IsType false ts complete → (∀ u ∈ more.head?, endsType complete u = true) →
      IsTyping (t :: ts) more

/-- An initial value, if there is one. -/
inductive IsInitializer (types : Bool) : List Token → List Token → Prop
  | none {more : List Token} : Lacks "=" more → IsInitializer types [] more
  | value {t : Token} {ts more : List Token} : t.symbol = .mark "=" →
      IsExpression types true ts more → (∀ u ∈ more.head?, endsExpression false u = true) →
      IsInitializer types (t :: ts) more

inductive IsDeclarator (types : Bool) : Binding → List Token → List Token → Prop
  | intro {p : Binding} {ts promise typing value more : List Token} : IsPattern p ts →
      IsPromise promise (typing ++ (value ++ more)) → IsTyping typing (value ++ more) →
      IsInitializer types value more →
      IsDeclarator types p (ts ++ (promise ++ (typing ++ value))) more

/-- The declarators behind the keyword of a declaration, with commas between them. -/
inductive IsDeclarators (types : Bool) : List Binding → List Token → List Token → Prop
  | last {p : Binding} {ts more : List Token} : IsDeclarator types p ts more → Lacks "," more →
      IsDeclarators types [p] ts more
  | cons {p : Binding} {ps : List Binding} {t : Token} {ts us more : List Token} :
      IsDeclarator types p ts (t :: (us ++ more)) → t.symbol = .mark "," →
      IsDeclarators types ps us more → IsDeclarators types (p :: ps) (ts ++ t :: us) more

/-- Whether a declaration of variables stands here. A constant enumeration is none. -/
def declaresVariables (ts : List Token) : Bool :=
  match ts with
  | [] => false
  | t :: ts =>
    t.keyword?.any (· ∈ ["const", "let", "var"]) &&
      !(t.keyword? = some "const" && ts.head?.bind Token.keyword? = some "enum")

/-- Tokens whose brackets match, and which do not begin an export outside of all brackets. -/
def IsSilent : List Token → Prop :=
  Run fun t => t.keyword? ≠ some "export"

/-- The tokens of a script with the patterns of the variables that it exports. A name that is
exported in another way counts as a pattern of its own. -/
inductive IsScript (dialect : Dialect) : List Binding → List Token → Prop
  | nil : IsScript dialect [] []
  | silent {ps : List Binding} {ts more : List Token} : IsSilent ts → IsScript dialect ps more →
      IsScript dialect ps (ts ++ more)
  | declaration {ps qs : List Binding} {t keyword : Token} {ts more : List Token} :
      t.keyword? = some "export" → declaresVariables (keyword :: (ts ++ more)) = true →
      IsDeclarators dialect.types ps ts more → IsSilent ts → IsScript dialect qs more →
      IsScript dialect (ps ++ qs) (t :: keyword :: (ts ++ more))
  | other {qs : List Binding} {t : Token} {ts more : List Token} : t.keyword? = some "export" →
      declaresVariables (ts ++ more) = false → IsSilent ts → IsScript dialect qs more →
      IsScript dialect ((readExport dialect (ts ++ more)).names.map Binding.name ++ qs)
        (t :: (ts ++ more))

/-! ## Reading declarations -/

theorem IsPromise.past (h : IsPromise ts more) : pastPromise (ts ++ more) = more := by
  cases h with
  | none lacks =>
      rw [List.nil_append, pastPromise]
      rintro position onNewLine afterComment rest rfl
      exact lacks _ rfl rfl
  | @mark t _ isMark =>
      obtain ⟨_, position, onNewLine, afterComment⟩ := t
      obtain rfl : _ = Symbol.mark "!" := isMark
      rfl

theorem IsTyping.past (h : IsTyping ts more) : pastTyping (ts ++ more) = more := by
  cases h with
  | none lacks =>
      rw [List.nil_append, pastTyping]
      rintro position onNewLine afterComment rest rfl
      exact lacks _ rfl rfl
  | @typed complete t ts _ colon isType ends =>
      obtain ⟨_, position, onNewLine, afterComment⟩ := t
      obtain rfl : _ = Symbol.mark ":" := colon
      exact isType.past ends

theorem IsInitializer.past (h : IsInitializer types ts more) :
    pastInitializer types (ts ++ more) = more := by
  cases h with
  | none lacks =>
      rw [List.nil_append, pastInitializer]
      rintro position onNewLine afterComment rest rfl
      exact lacks _ rfl rfl
  | @value t ts _ equals isExpression ends =>
      obtain ⟨_, position, onNewLine, afterComment⟩ := t
      obtain rfl : _ = Symbol.mark "=" := equals
      exact isExpression.past ends

/-- A declarator is read as its pattern. -/
theorem IsDeclarator.reads (h : IsDeclarator types p ts more) (fuel : Nat)
    (enough : 2 * ts.length ≤ fuel) :
    ∃ rest, readBinding fuel (ts ++ more) = some (p, rest) ∧
      pastInitializer types (pastTyping (pastPromise rest)) = more := by
  cases h with
  | @intro ts promise typing value _ pattern isPromise isTyping isInitializer =>
      rw [List.length_append] at enough
      refine ⟨promise ++ (typing ++ (value ++ more)), ?_, ?_⟩
      · have read := pattern.reads fuel (by omega) (promise ++ (typing ++ (value ++ more)))
        simpa using read
      · rw [isPromise.past, isTyping.past, isInitializer.past]

/-- Declarators are read as their patterns. -/
theorem IsDeclarators.reads (h : IsDeclarators dialect.types ps ts more) (fuel : Nat)
    (enough : ts.length < fuel) : readDeclarators dialect fuel (ts ++ more) = ps := by
  induction h generalizing fuel with
  | @last p ts more declarator lacks =>
      obtain ⟨fuel, rfl⟩ : ∃ fuel', fuel = fuel' + 1 := Nat.exists_eq_add_of_le' (by omega)
      obtain ⟨rest, read, past⟩ := declarator.reads (2 * (ts ++ more).length + 2)
        (by rw [List.length_append]; omega)
      rw [readDeclarators, read]
      dsimp only
      rw [past]
      split
      · exact absurd rfl (lacks _ rfl)
      · rfl
  | @cons p ps t ts us more declarator comma others ih =>
      rw [List.length_append, List.length_cons] at enough
      obtain ⟨fuel, rfl⟩ : ∃ fuel', fuel = fuel' + 1 := Nat.exists_eq_add_of_le' (by omega)
      obtain ⟨_, position, onNewLine, afterComment⟩ := t
      obtain rfl : _ = Symbol.mark "," := comma
      rw [List.append_assoc, List.cons_append]
      obtain ⟨rest, read, past⟩ := declarator.reads
        (2 * (ts ++ ⟨.mark ",", position, onNewLine, afterComment⟩ :: (us ++ more)).length + 2)
        (by rw [List.length_append]; omega)
      rw [readDeclarators, read]
      dsimp only
      rw [past]
      exact congrArg (p :: ·) (ih fuel (by omega))

/-! ## Reading scripts -/

theorem Token.keyword?_eq_some (h : t.keyword? = some text) :
    t.symbol = .word text ∧ t.position ≠ .member := by
  rw [keyword?] at h
  split at h
  · split at h
    · cases h
    · obtain rfl := Option.some.inj h
      exact ⟨‹_›, ‹_›⟩
  · cases h

theorem exists_keyword {keyword : Token} (h : declaresVariables (keyword :: ts) = true) :
    (∃ text, keyword.keyword? = some text ∧ (text = "const" ∨ text = "let" ∨ text = "var")) ∧
      (keyword.keyword? = some "const" → ts.head?.bind Token.keyword? ≠ some "enum") := by
  simpa [declaresVariables, Option.any_eq_true, imp_iff_not_or] using h

theorem isSilent_of_declaresVariables {keyword : Token}
    (h : declaresVariables (keyword :: ts) = true) : IsSilent [keyword] := by
  obtain ⟨⟨text, isKeyword, among⟩, -⟩ := exists_keyword h
  have word := (Token.keyword?_eq_some isKeyword).1
  refine .single ?_ (by rw [Token.isBracket, word]) .nil
  rw [isKeyword]
  rcases among with rfl | rfl | rfl <;> decide

/-- A declaration of variables exports what is listed of its patterns. -/
theorem readExport_declaration {keyword : Token} (h : declaresVariables (keyword :: ts) = true) :
    (readExport dialect (keyword :: ts)).names =
      (readDeclarators dialect (ts.length + 1) ts).flatMap Binding.listed := by
  obtain ⟨⟨text, isKeyword, among⟩, noEnum⟩ := exists_keyword h
  obtain ⟨word, -⟩ := Token.keyword?_eq_some isKeyword
  have unfolded : (readExport dialect (keyword :: ts)).names =
      declaredNames dialect (keyword :: ts) := by
    obtain ⟨_, position, onNewLine, afterComment⟩ := keyword
    obtain rfl : _ = Symbol.word text := word
    rcases among with rfl | rfl | rfl <;> rfl
  rw [unfolded, declaredNames.eq_def]
  dsimp only
  rw [isKeyword]
  rcases among with rfl | rfl | rfl
  · have noEnum := noEnum isKeyword
    simp [declarationModifiers, noEnum]
  · simp [declarationModifiers]
  · simp [declarationModifiers]

theorem exports_export (isKeyword : t.keyword? = some "export") (dialect : Dialect)
    (ts : List Token) :
    (readStatements dialect 0 (t :: ts)).2 =
      (readExport dialect ts).names ++ (readStatements dialect 0 ts).2 := by
  have flat : t.depthAfter 0 = 0 := by rw [Token.depthAfter, (Token.keyword?_eq_some isKeyword).1]
  rw [readStatements, flat]
  dsimp only
  rw [if_neg (by simp [isKeyword]), if_pos (by simp [isKeyword])]

/-- The exports of a script are what is listed of its patterns. -/
theorem IsScript.exports_eq (h : IsScript dialect ps ts) :
    (readStatements dialect 0 ts).2 = ps.flatMap Binding.listed := by
  have silent {ts : List Token} (h : IsSilent ts) (more : List Token) :
      (readStatements dialect 0 (ts ++ more)).2 = (readStatements dialect 0 more).2 :=
    h.exports_append dialect (fun _ here _ => here) more
  induction h with
  | nil => rfl
  | silent isSilent _ ih => rw [silent isSilent, ih]
  | @declaration ps qs t keyword ts more isExport declares declarators isSilent _ ih =>
      have names : (readExport dialect (keyword :: (ts ++ more))).names =
          ps.flatMap Binding.listed := by
        rw [readExport_declaration declares,
          declarators.reads _ (by rw [List.length_append]; omega)]
      have passed : IsSilent [keyword] := isSilent_of_declaresVariables declares
      rw [exports_export isExport, names, ← List.singleton_append, silent passed, silent isSilent,
        ih, List.flatMap_append]
  | @other qs t ts more isExport _ isSilent _ ih =>
      have own (names : List String) : (names.map Binding.name).flatMap Binding.listed = names := by
        rw [List.flatMap_map]
        exact List.flatMap_singleton' names
      rw [exports_export isExport, silent isSilent, ih, List.flatMap_append, own]

/-! ## Surfaces -/

end CommitSplit.Script
