import CommitSplit.Proofs.Surface.Names
import CommitSplit.Surface.Python.Reader

/-!
# Names that a module binds

A line of code at the margin defines a name, begins a statement with a body, or holds simple
statements between semicolons. An assignment gives its value to one target after the other, and a
target may be a list of targets again. Of all these the surface takes the first target, and only
where it is a name.
-/

namespace CommitSplit.Python.Margin

open Piece (isMark isWord)

/-- What stands at the left of an equals sign. -/
inductive Target
  | name (text : String)
  /-- Targets between commas, in brackets or not. -/
  | list (targets : List Target)
  /-- A member or an item of an object. -/
  | place

namespace Target

mutual

/-- The names that get a value. -/
def bound : Target → List String
  | name text => [text]
  | list targets => boundAll targets
  | place => []

def boundAll : List Target → List String
  | [] => []
  | t :: ts => t.bound ++ boundAll ts

end

/-- The target as a name. -/
def name? : Target → Option String
  | name text => some text
  | _ => none

end Target

inductive Statement
  | definition (name : String)
  /-- An assignment to one target after the other. -/
  | assignment (first : Target) (others : List Target)
  | other

namespace Statement

/-- The names that an assignment binds. -/
def assigned : Statement → List String
  | assignment first others => first.bound ++ Target.boundAll others
  | _ => []

/-- The names that a statement defines or assigns. -/
def bound : Statement → List String
  | definition name => [name]
  | s => s.assigned

/-- The names of them that the surface takes. -/
def taken : Statement → List String
  | definition name => [name]
  | assignment first _ => first.name?.toList
  | other => []

theorem taken_subset (s : Statement) : s.taken ⊆ s.bound := by
  cases s with
  | assignment first others =>
      cases first with
      | name text => simp [taken, bound, assigned, Target.name?, Target.bound]
      | _ => exact List.nil_subset _
  | _ => exact fun _ there => there

end Statement

/-! ## The grammar -/

/-- The pieces of a member or an item of an object. -/
structure IsPlace (ps : List Piece) : Prop where
  object : ∃ p object member, ps = p :: (object ++ member) ∧
    ((∃ dot name, member = [dot, name] ∧ dot.isMark "." ∧ name.word?.isSome) ∨
      ∃ keys e, member = [.group .square keys e])
  /-- An object is written without these marks, except in brackets. -/
  marks : ∀ p ∈ ps, ∀ mark ∈ ["=", ":", ",", ";"], p.isMark mark = false

mutual

/-- The pieces of a target that needs no comma. -/
inductive IsTarget : Target → List Piece → Prop
  | name {text : String} (e : Extent) : text ∉ keywords →
      IsTarget (.name text) [.single (.word text) e]
  | list {ts : List Target} {ps : List Piece} {fence : Fence} (e : Extent) : fence ≠ .brace →
      IsTargets ts ps → IsTarget (.list ts) [.group fence ps e]
  | place {ps : List Piece} : IsPlace ps → IsTarget .place ps

/-- The pieces of a target in a list, where one may take what is left over. -/
inductive IsItem : Target → List Piece → Prop
  | one {t : Target} {ps : List Piece} : IsTarget t ps → IsItem t ps
  | starred {t : Target} {ps : List Piece} (e : Extent) : IsTarget t ps →
      IsItem t (.single (.mark "*") e :: ps)

/-- Targets between commas; one may stand behind the last. -/
inductive IsTargets : List Target → List Piece → Prop
  | nil : IsTargets [] []
  | last {t : Target} {ps : List Piece} : IsItem t ps → IsTargets [t] ps
  | cons {t : Target} {ts : List Target} {ps qs : List Piece} (e : Extent) : IsItem t ps →
      IsTargets ts qs → IsTargets (t :: ts) (ps ++ .single (.mark ",") e :: qs)

end

/-- What stands in front of an equals sign: a target, or a list of them without brackets. -/
inductive IsLeft : Target → List Piece → Prop
  | one {t : Target} {ps : List Piece} : IsTarget t ps → IsLeft t ps
  | list {t : Target} {ts : List Target} {ps qs : List Piece} (e : Extent) : IsItem t ps →
      IsTargets ts qs → IsLeft (.list (t :: ts)) (ps ++ .single (.mark ",") e :: qs)

/-- An expression has equals signs and colons of its own only in brackets and in the parameters of a
function. -/
def IsExpression (ps : List Piece) : Prop :=
  ∀ p ∈ withoutParameters 0 ps, p.isMark "=" = false ∧ p.isMark ":" = false

/-- What stands behind the first equals sign: further targets and the value. -/
inductive IsAssigned : List Target → List Piece → Prop
  | value {ps : List Piece} : IsExpression ps → IsAssigned [] ps
  | target {t : Target} {ts : List Target} {ps qs : List Piece} (e : Extent) : IsLeft t ps →
      IsAssigned ts qs → IsAssigned (t :: ts) (ps ++ .single (.mark "=") e :: qs)

/-- A statement without a body. -/
inductive IsSimple : Statement → List Piece → Prop
  | assignment {t : Target} {ts : List Target} {ps qs : List Piece} (e : Extent) : IsLeft t ps →
      IsAssigned ts qs → IsSimple (.assignment t ts) (ps ++ .single (.mark "=") e :: qs)
  /-- A target with its type, and a value or none. -/
  | annotated {t : Target} {ps : List Piece} (e : Extent) (type : List Piece) : IsTarget t ps →
      IsSimple (.assignment t []) (ps ++ .single (.mark ":") e :: type)
  | importing {p : Piece} (ps : List Piece) : p.isWord "import" ∨ p.isWord "from" →
      IsSimple .other (p :: ps)
  /-- Another name for a type. -/
  | renamed {p q : Piece} (ps : List Piece) : p.isWord "type" → q.word?.isSome →
      IsSimple .other (p :: q :: ps)
  /-- Everything else is led by a keyword or is an expression, which may be applied to a target. -/
  | other {ps : List Piece} : IsExpression ps → IsSimple .other ps

/-- Whether a piece may begin a line of simple statements. -/
def beginsSimple (p : Piece) : Bool :=
  !p.isSign .indent && p.word?.all (· ∉ ["async", "def", "class"] ++ blockKeywords)

/-- The word in front of a statement that may be suspended. -/
inductive IsAsync : List Piece → Prop
  | nil : IsAsync []
  | cons (e : Extent) : IsAsync [.single (.word "async") e]

/-- A line of code with the statements of the module that it holds. -/
inductive IsLine : List Statement → List Piece → Prop
  /-- Behind blanks stands the body of another statement. -/
  | body {ps : List Piece} : ps.head?.any (Piece.isSign .indent) → IsLine [] ps
  | definition {front : List Piece} {keyword name : String} (e e' : Extent) (ps : List Piece) :
      IsAsync front → keyword ∈ ["def", "class"] →
      IsLine [.definition name]
        (front ++ .single (.word keyword) e :: .single (.word name) e' :: ps)
  | block {front : List Piece} {keyword : String} (e : Extent) (ps : List Piece) : IsAsync front →
      keyword ∈ blockKeywords → IsLine [] (front ++ .single (.word keyword) e :: ps)
  | choice (e e' : Extent) (subject : List Piece) :
      IsLine [] (.single (.word "match") e :: (subject ++ [.single (.mark ":") e']))
  | simple {ss : List Statement} {ps : List Piece} : (∀ p ∈ ps.head?, beginsSimple p) →
      (ps.head?.any (isWord "match") → ps.getLast?.any (isMark ":") = false) →
      List.Forall₂ IsSimple ss (Piece.sections (isMark ";") ps) → IsLine ss ps

/-! ## Reading statements -/

/-- Whether a name is meant for others. -/
def isPublic (name : String) : Bool :=
  name.toList.head? ≠ some '_'

/-- Some bindings declare some names, and none of them lists the exports. -/
structure Declares (bs : List Binding) (names : List String) : Prop where
  declared : declared bs = names.filter isPublic
  implicit : ∀ b ∈ bs, ∀ names, b ≠ .exports names

namespace Declares

variable {bs bs' : List Binding} {names names' : List String}

protected theorem nil : Declares [] [] :=
  ⟨rfl, nofun⟩

protected theorem append (h : Declares bs names) (h' : Declares bs' names') :
    Declares (bs ++ bs') (names ++ names') where
  declared := by
    rw [List.filter_append, ← h.declared, ← h'.declared]
    exact List.filterMap_append
  implicit := List.forall_mem_append.mpr ⟨h.implicit, h'.implicit⟩

protected theorem name (name : String) : Declares [.declares name] [name] where
  declared := by
    by_cases hidden : name.toList.head? = some '_' <;> simp [Python.declared, isPublic, hidden]
  implicit := by simp

protected theorem imports (modules : List String) : Declares [.imports modules] [] :=
  ⟨rfl, by simp⟩

theorem explicit?_eq_none (h : Declares bs names) : explicit? bs = none := by
  have implicit := h.implicit
  clear h
  rw [explicit?]
  induction bs with
  | nil => rfl
  | cons b bs ih =>
      obtain ⟨here, others⟩ := List.forall_mem_cons.mp implicit
      have same := ih others
      cases b with
      | exports names => exact absurd rfl (here names)
      | imports _ | declares _ => exact same

end Declares

variable {p q : Piece} {ps rest : List Piece} {t : Target} {s : Statement}

/-- No name stands in front of an equals sign or a colon here. -/
def NoName (ps : List Piece) : Prop :=
  ∀ p q rest, ps = p :: q :: rest → p.word?.any (· ∉ keywords) →
    q.isMark "=" = false ∧ q.isMark ":" = false

theorem noName_of_word?_eq_none (h : p.word? = none) (rest : List Piece) : NoName (p :: rest) := by
  rintro p' q rest' same isName
  obtain ⟨rfl, -⟩ := List.cons.inj same
  simp [h] at isName

theorem noName_of_next (p : Piece) (rest : List Piece) (equals : q.isMark "=" = false)
    (colon : q.isMark ":" = false) : NoName (p :: q :: rest) := by
  rintro p' q' rest' same -
  obtain ⟨-, same⟩ := List.cons.inj same
  obtain ⟨rfl, -⟩ := List.cons.inj same
  exact ⟨equals, colon⟩

theorem IsPlace.noName (h : IsPlace ps) (rest : List Piece) : NoName (ps ++ rest) := by
  obtain ⟨p, object, member, rfl, shape⟩ := h.object
  obtain ⟨q, behind, some_piece⟩ : ∃ q behind, object ++ member = q :: behind := by
    refine List.exists_cons_of_ne_nil fun nothing => ?_
    obtain ⟨-, rfl⟩ := List.append_eq_nil_iff.mp nothing
    rcases shape with ⟨_, _, same, -⟩ | ⟨_, _, same⟩ <;> cases same
  have marks := h.marks q (by simp [some_piece])
  rw [some_piece]
  exact noName_of_next p _ (marks "=" (by simp)) (marks ":" (by simp))

theorem IsItem.noName (h : IsItem t ps) (e : Extent) (rest : List Piece) :
    NoName (ps ++ .single (.mark ",") e :: rest) := by
  cases h with
  | starred e' _ => exact noName_of_word?_eq_none rfl _
  | one target =>
      cases target with
      | name e' _ => exact noName_of_next _ _ rfl rfl
      | list e' _ _ => exact noName_of_word?_eq_none rfl _
      | place place => exact place.noName _

/-- A name is the only target that the surface can take. -/
theorem IsLeft.noName (h : IsLeft t ps) (other : t.name? = none) (rest : List Piece) :
    NoName (ps ++ rest) := by
  cases h with
  | list e item _ =>
      rw [List.append_assoc]
      exact item.noName e _
  | one target =>
      cases target with
      | name e' _ => cases other
      | list e' _ _ => exact noName_of_word?_eq_none rfl _
      | place place => exact place.noName _

theorem IsLeft.eq_single {text : String} (h : IsLeft (.name text) ps) :
    text ∉ keywords ∧ ∃ e, ps = [.single (.word text) e] := by
  cases h with
  | one target =>
      cases target with
      | name e isName => exact ⟨isName, e, rfl⟩

theorem noName_of_isExpression (h : IsExpression ps) : NoName ps := by
  rintro p q rest rfl isName
  have other : p.isWord "lambda" = false := by
    rw [Piece.isWord, decide_eq_false_iff_not]
    intro word
    rw [word] at isName
    exact absurd isName (by decide)
  refine h q ?_
  rw [withoutParameters, if_neg (by simp [other]), withoutParameters]
  simp

/-- Where no name stands in front of a mark, nothing is declared. -/
theorem declares_readSimple_of_noName (h : NoName ps) : Declares (readSimple ps).toList [] := by
  cases ps with
  | nil => exact .nil
  | cons p rest =>
      rw [readSimple]
      cases word : p.word? with
      | none => exact .nil
      | some w =>
          dsimp only
          split
          · exact .imports _
          · split
            · cases Piece.splitFirst (isWord "import") rest with
              | none => exact .nil
              | some parts =>
                  obtain ⟨module, _, _⟩ := parts
                  dsimp only [Option.bind_some]
                  split
                  · exact .nil
                  · exact .imports _
            · rw [if_neg]
              · exact .nil
              · intro named
                obtain ⟨isName, marked⟩ : w ∉ keywords ∧
                    rest.head?.any (fun q => q.isMark "=" || q.isMark ":") = true := by
                  simpa using named
                cases rest with
                | nil => cases marked
                | cons q rest =>
                    obtain ⟨equals, colon⟩ := h p q rest rfl (by simp [word, isName])
                    simp [equals, colon] at marked

theorem readSimple_name {text mark : String} (isName : text ∉ keywords) (other : text ≠ "__all__")
    (isMark : mark ∈ ["=", ":"]) (e e' : Extent) (rest : List Piece) :
    readSimple (.single (.word text) e :: .single (.mark mark) e' :: rest) =
      some (.declares text) := by
  have noImport : text ≠ "import" ∧ text ≠ "from" := by
    constructor <;> rintro rfl <;> exact isName (by decide)
  have marked : mark = "=" ∨ mark = ":" := by simpa using isMark
  simp [readSimple, Piece.word?, noImport, isName, Piece.isMark, marked, other]

/-- What stands in front of a mark is declared if it is a name. -/
theorem IsLeft.declares (h : IsLeft t ps) (free : "__all__" ∉ t.bound) {mark : String}
    (isMark : mark ∈ ["=", ":"]) (e : Extent) (rest : List Piece) :
    Declares (readSimple (ps ++ .single (.mark mark) e :: rest)).toList t.name?.toList := by
  cases t with
  | name text =>
      obtain ⟨isName, e', rfl⟩ := h.eq_single
      have other : text ≠ "__all__" := by
        rintro rfl
        exact free (by simp [Target.bound])
      rw [List.singleton_append, readSimple_name isName other isMark]
      exact .name text
  | list _ | place => exact declares_readSimple_of_noName (h.noName rfl _)

/-- A simple statement declares what it takes. -/
theorem IsSimple.declares (h : IsSimple s ps) (free : "__all__" ∉ s.assigned) :
    Declares (readSimple ps).toList s.taken := by
  cases h with
  | assignment e left _ =>
      exact left.declares (fun there => free (List.mem_append_left _ there)) (by simp) e _
  | annotated e type target =>
      exact (IsLeft.one target).declares (fun there => free (List.mem_append_left _ there))
        (by simp) e _
  | @importing p ps word =>
      have isKeyword : p.word?.any (· ∉ keywords) = false := by
        rcases word with word | word <;> rw [Piece.isWord, decide_eq_true_eq] at word <;>
          rw [word] <;> decide
      refine declares_readSimple_of_noName ?_
      rintro p' q rest same isName
      obtain ⟨rfl, -⟩ := List.cons.inj same
      exact Bool.noConfusion (isKeyword.symm.trans isName)
  | @renamed p q ps _ named =>
      refine declares_readSimple_of_noName ?_
      cases q with
      | group _ _ _ => cases named
      | single sign e =>
          cases sign with
          | word _ => exact noName_of_next _ _ rfl rfl
          | _ => cases named
  | other expression => exact declares_readSimple_of_noName (noName_of_isExpression expression)

/-! ## Reading lines -/

theorem definedName?_eq_none (h : p.isWord "def" = false ∧ p.isWord "class" = false)
    (rest : List Piece) : definedName? (p :: rest) = none := by
  cases rest with
  | nil => rfl
  | cons q rest => simp [definedName?, h]

section Keyword

variable {front : List Piece} {keyword : String} {e : Extent}

theorem readLine_definition (isAsync : IsAsync front) (other : keyword ≠ "async") {name : String}
    (defined : definedName? (.single (.word keyword) e :: rest) = some name) :
    readLine (front ++ .single (.word keyword) e :: rest) = [.declares name] := by
  cases isAsync <;> simp [readLine, Piece.isWord, Piece.word?, Piece.isSign, other, defined]

theorem readLine_block (isAsync : IsAsync front) (other : keyword ≠ "async")
    (undefined : definedName? (.single (.word keyword) e :: rest) = none)
    (body : hasBody (.single (.word keyword) e :: rest) = true) :
    readLine (front ++ .single (.word keyword) e :: rest) = [] := by
  cases isAsync <;> simp [readLine, Piece.isWord, Piece.word?, Piece.isSign, other, undefined, body]

end Keyword

theorem readLine_simple (begins : ∀ p ∈ ps.head?, beginsSimple p = true)
    (no_choice : ps.head?.any (isWord "match") → ps.getLast?.any (isMark ":") = false) :
    readLine ps = (Piece.sections (isMark ";") ps).filterMap readSimple := by
  cases ps with
  | nil => rfl
  | cons p rest =>
      obtain ⟨margin, words⟩ : p.isSign .indent = false ∧
          p.word?.all (· ∉ ["async", "def", "class"] ++ blockKeywords) = true := by
        simpa [beginsSimple] using begins p rfl
      have isNot {text : String} (there : text ∈ ["async", "def", "class"] ++ blockKeywords) :
          p.isWord text = false := by
        rw [Piece.isWord, decide_eq_false_iff_not]
        intro word
        rw [word] at words
        exact of_decide_eq_true words there
      have noKeyword : p.word?.any (· ∈ blockKeywords) = false := by
        cases word : p.word? with
        | none => rfl
        | some text =>
            rw [word] at words
            have other := of_decide_eq_true words
            exact decide_eq_false fun there => other (List.mem_append_right _ there)
      have noChoice : (p.isWord "match" && (p :: rest).getLast?.any (isMark ":")) = false := by
        cases isMatch : p.isWord "match" with
        | false => rfl
        | true => exact no_choice isMatch
      have noBody : hasBody (p :: rest) = false := by
        rw [hasBody, noKeyword, noChoice, Bool.or_false]
      have undefined := definedName?_eq_none (p := p)
        ⟨isNot (by decide), isNot (by decide)⟩ rest
      have now : p.isWord "async" = false := isNot (by decide)
      simp [readLine, now, margin, undefined, noBody]

theorem declares_filterMap {ss : List Statement} {pss : List (List Piece)}
    (h : List.Forall₂ IsSimple ss pss) (free : "__all__" ∉ ss.flatMap Statement.assigned) :
    Declares (pss.filterMap readSimple) (ss.flatMap Statement.taken) := by
  induction h with
  | nil => exact .nil
  | @cons s ps ss pss here _ ih =>
      rw [List.flatMap_cons, List.mem_append, not_or] at free
      have front := here.declares free.1
      have all : (ps :: pss).filterMap readSimple =
          (readSimple ps).toList ++ pss.filterMap readSimple := by
        rw [List.filterMap_cons]
        cases readSimple ps <;> rfl
      rw [all]
      exact front.append (ih free.2)

/-- A line declares what its statements take. -/
theorem IsLine.declares {ss : List Statement} (h : IsLine ss ps)
    (free : "__all__" ∉ ss.flatMap Statement.assigned) :
    Declares (readLine ps) (ss.flatMap Statement.taken) := by
  cases h with
  | body indented =>
      rw [readLine, if_pos indented]
      exact .nil
  | @definition front keyword name e e' rest isAsync isKeyword =>
      have other : keyword ≠ "async" := by
        rintro rfl
        exact absurd isKeyword (by decide)
      have defined : definedName? (.single (.word keyword) e :: .single (.word name) e' :: rest) =
          some name := by
        have cases : keyword = "def" ∨ keyword = "class" := by simpa using isKeyword
        simp [definedName?, Piece.isWord, Piece.word?, cases]
      rw [readLine_definition isAsync other defined]
      exact .name name
  | @block front keyword e rest isAsync isKeyword =>
      have others : ∀ keyword ∈ blockKeywords, keyword ≠ "async" ∧ keyword ≠ "def" ∧
          keyword ≠ "class" := by decide
      obtain ⟨other, noDef, noClass⟩ := others keyword isKeyword
      have undefined : definedName? (.single (.word keyword) e :: rest) = none :=
        definedName?_eq_none (by simp [Piece.isWord, Piece.word?, noDef, noClass]) rest
      have body : hasBody (.single (.word keyword) e :: rest) = true := by
        simp [hasBody, Piece.word?, isKeyword]
      rw [readLine_block isAsync other undefined body]
      exact .nil
  | choice e e' subject =>
      have undefined := definedName?_eq_none (p := .single (.word "match") e) ⟨rfl, rfl⟩
        (subject ++ [.single (.mark ":") e'])
      have body : hasBody (.single (.word "match") e :: (subject ++ [.single (.mark ":") e'])) =
          true := by
        simp [hasBody, Piece.isWord, Piece.word?, Piece.isMark, List.getLast?_cons]
      have read := readLine_block .nil (by decide) undefined body
      rw [List.nil_append] at read
      rw [read]
      exact .nil
  | simple begins no_choice statements =>
      rw [readLine_simple begins no_choice]
      exact declares_filterMap statements free

/-! ## Modules -/

/-- The statements of a module, line by line. -/
def HasStatements (ss : List Statement) (content : List Char) : Prop :=
  ∃ lines, List.Forall₂ IsLine lines (codeLines content) ∧ ss = lines.flatten

theorem HasStatements.declares {ss : List Statement} {content : List Char}
    (h : HasStatements ss content) (free : "__all__" ∉ ss.flatMap Statement.assigned) :
    Declares ((codeLines content).flatMap readLine) (ss.flatMap Statement.taken) := by
  obtain ⟨lines, h, rfl⟩ := h
  generalize codeLines content = pss at h
  induction h with
  | nil => exact .nil
  | @cons ss ps lines pss here _ ih =>
      rw [List.flatten_cons, List.flatMap_append, List.mem_append, not_or] at free
      rw [List.flatMap_cons, List.flatten_cons, List.flatMap_append]
      exact (here.declares free.1).append (ih free.2)

variable {ss : List Statement} {content : List Char}

/-- Without a list of exports a module exports the public names that its statements take. -/
theorem HasStatements.exports_eq (h : HasStatements ss content)
    (free : "__all__" ∉ ss.flatMap Statement.assigned) :
    (read content).exports = SurfaceNames.tidy ((ss.flatMap Statement.taken).filter isPublic) := by
  have declares := h.declares free
  rw [← declares.declared]
  change SurfaceNames.tidy _ = _
  rw [declares.explicit?_eq_none, Option.getD_none]

theorem public_taken_subset (ss : List Statement) :
    (ss.flatMap Statement.taken).filter isPublic ⊆
      (ss.flatMap Statement.bound).filter isPublic := by
  refine List.filter_subset _ fun name there => ?_
  obtain ⟨s, statement, taken⟩ := List.mem_flatMap.mp there
  exact List.mem_flatMap.mpr ⟨s, statement, s.taken_subset taken⟩

/-- Without a list of exports a module exports the public names that its statements take, in
order. They are the public names that the statements bind just if each of those is taken by some
statement: no public name is bound only behind another target or in a list. -/
theorem exports_of_statements (h : HasStatements ss content)
    (free : "__all__" ∉ ss.flatMap Statement.assigned) :
    (read content).exports = SurfaceNames.tidy ((ss.flatMap Statement.taken).filter isPublic) ∧
    (SurfaceNames.sameNames (read content).exports
        (SurfaceNames.tidy ((ss.flatMap Statement.bound).filter isPublic)) = true ↔
      ∀ name ∈ ss.flatMap Statement.bound, isPublic name = true → name ≠ "" →
        name ∈ ss.flatMap Statement.taken) ∧
    ((∀ s ∈ ss, s.taken = s.bound) →
      (read content).exports =
        SurfaceNames.tidy ((ss.flatMap Statement.bound).filter isPublic)) := by
  have taken := h.exports_eq free
  refine ⟨taken, ?_, fun all => ?_⟩
  · rw [taken, SurfaceNames.sameNames_tidy_iff (public_taken_subset ss)]
    simp only [List.mem_filter]
    constructor
    · intro all name bound isPublic some_char
      exact (all name ⟨bound, isPublic⟩ some_char).1
    · rintro all name ⟨bound, isPublic⟩ some_char
      exact ⟨all name bound isPublic some_char, isPublic⟩
  · rw [taken, List.flatMap_congr all]

/-- A line without semicolons is one statement. -/
theorem IsLine.of_isSimple (begins : ∀ p ∈ ps.head?, beginsSimple p = true)
    (no_choice : ps.head?.any (isWord "match") = false)
    (one : ∀ p ∈ ps, p.isMark ";" = false) (h : IsSimple s ps) : IsLine [s] ps := by
  refine .simple begins (fun isMatch => Bool.noConfusion (no_choice.symm.trans isMatch)) ?_
  have whole : Piece.sections (isMark ";") ps = [ps] :=
    List.splitOnP_eq_singleton fun p there => by simp [one p there]
  rw [whole]
  exact .cons h .nil

/-- A chain and a pair. -/
def chainAndPair : List Char :=
  "a = b = 1\nc, d = 1, 2\n".toList

theorem hasStatements_chainAndPair :
    HasStatements [.assignment (.name "a") [.name "b"],
      .assignment (.list [.name "c", .name "d"]) [], .other] chainAndPair := by
  obtain ⟨e, lines⟩ : ∃ e : Nat → Extent, codeLines chainAndPair =
      [[.single (.word "a") (e 0), .single (.mark "=") (e 2), .single (.word "b") (e 4),
        .single (.mark "=") (e 6), .single .value (e 8)],
      [.single (.word "c") (e 10), .single (.mark ",") (e 11), .single (.word "d") (e 13),
        .single (.mark "=") (e 15), .single .value (e 17), .single (.mark ",") (e 18),
        .single .value (e 20)], []] :=
    ⟨fun n => ⟨chainAndPair.drop n, chainAndPair.drop (n + 1)⟩, rfl⟩
  have name {text : String} (free : text ∉ keywords) (n : Nat) :
      IsTarget (.name text) [.single (.word text) (e n)] := .name (e n) free
  have value (n : Nat) : IsExpression [.single .value (e n)] := by
    simp [IsExpression, withoutParameters, Piece.isMark]
  have values (n m k : Nat) : IsExpression [.single .value (e n), .single (.mark ",") (e m),
      .single .value (e k)] := by
    simp [IsExpression, withoutParameters, Piece.isMark, Piece.isWord, Piece.word?]
  have chain : IsSimple (.assignment (.name "a") [.name "b"]) _ :=
    .assignment (e 2) (.one (name (by decide) 0)) (.target (e 6) (.one (name (by decide) 4))
      (.value (value 8)))
  have pair : IsSimple (.assignment (.list [.name "c", .name "d"]) []) _ :=
    .assignment (e 15) (.list (e 11) (.one (name (by decide) 10))
      (.last (.one (name (by decide) 13)))) (.value (values 17 18 20))
  refine ⟨[[_], [_], [.other]], ?_, rfl⟩
  rw [lines]
  refine .cons (.of_isSimple ?_ rfl ?_ chain) (.cons (.of_isSimple ?_ rfl ?_ pair)
    (.cons (.of_isSimple nofun rfl nofun (.other nofun)) .nil))
  all_goals simp [beginsSimple, Piece.isSign, Piece.word?, Piece.isMark, blockKeywords]

/-- Of a chain the first name is exported, of a pair none. -/
theorem exports_of_statements_of_chainAndPair :
    (read chainAndPair).exports = ["a"] :=
  (exports_of_statements hasStatements_chainAndPair (by decide)).1.trans (by decide)

/-- A module need not export every public name that its statements bind. -/
theorem exports_not_bound :
    ¬ ∀ ss content, HasStatements ss content → "__all__" ∉ ss.flatMap Statement.assigned →
      (read content).exports =
        SurfaceNames.tidy ((ss.flatMap Statement.bound).filter isPublic) := by
  intro all
  have claimed := all _ _ hasStatements_chainAndPair (by decide)
  rw [hasStatements_chainAndPair.exports_eq (by decide)] at claimed
  exact absurd claimed (by decide)

end CommitSplit.Python.Margin
