import CommitSplit.Proofs.Surface.Script.Balanced

/-!
# Reading binding patterns

A pattern is a name, or a pair of brackets around parts. A part may stand behind a key or behind
three dots, and may have a default. However deep its parts are nested, a pattern is read as what it
is, and the reader stops right behind it.
-/

namespace CommitSplit.Script

/-! ## Names in a pattern -/

namespace Binding

mutual

/-- The names that the defaults of a pattern mention. -/
def mentioned : Binding → List String
  | name _ => []
  | parts ps => mentionedAll ps
  | withDefault target names => target.mentioned ++ names

def mentionedAll : List Binding → List String
  | [] => []
  | p :: ps => p.mentioned ++ mentionedAll ps

end

mutual

/-- What is listed of a pattern is bound by it or mentioned in a default. -/
theorem mem_listed_iff {x : String} : (b : Binding) → (x ∈ b.listed ↔ x ∈ b.bound ∨ x ∈ b.mentioned)
  | name text => by simp [listed, bound, mentioned]
  | parts ps => by rw [listed, bound, mentioned, mem_listedAll_iff ps]
  | withDefault target names => by
      rw [listed, bound, mentioned, List.mem_append, List.mem_append, mem_listed_iff target,
        or_assoc]

theorem mem_listedAll_iff {x : String} :
    (ps : List Binding) → (x ∈ listedAll ps ↔ x ∈ boundAll ps ∨ x ∈ mentionedAll ps)
  | [] => by simp [listedAll, boundAll, mentionedAll]
  | p :: ps => by
      rw [listedAll, boundAll, mentionedAll, List.mem_append, List.mem_append, List.mem_append,
        mem_listed_iff p, mem_listedAll_iff ps, or_or_or_comm]

end

mutual

/-- Where no default mentions a name, only the names that are bound are listed. -/
theorem listed_eq_bound : (b : Binding) → b.mentioned = [] → b.listed = b.bound
  | name _, _ => rfl
  | parts ps, silent => listedAll_eq_boundAll ps silent
  | withDefault target names, silent => by
      obtain ⟨front, rfl⟩ := List.append_eq_nil_iff.mp silent
      rw [listed, bound, List.append_nil, listed_eq_bound target front]

theorem listedAll_eq_boundAll :
    (ps : List Binding) → mentionedAll ps = [] → listedAll ps = boundAll ps
  | [], _ => rfl
  | p :: ps, silent => by
      obtain ⟨front, behind⟩ := List.append_eq_nil_iff.mp silent
      rw [listedAll, boundAll, listed_eq_bound p front, listedAll_eq_boundAll ps behind]

end

end Binding

/-! ## The grammar -/

/-- The key of a part: a word, a string or a number, or an expression in square brackets. -/
inductive IsKey : List Token → Prop
  | single {t : Token} : t.isBracket = false → (∀ text, t.symbol ≠ .mark text) → IsKey [t]
  | computed {t u : Token} {ts : List Token} {kind : Bracket} : t.symbol = .opening .square →
      Balanced ts → u.symbol = .closing kind → IsKey (t :: (ts ++ [u]))

mutual

/-- The tokens of a pattern. -/
inductive IsPattern : Binding → List Token → Prop
  | name {t : Token} {text : String} : t.symbol = .word text → IsPattern (.name text) [t]
  | array {t u : Token} {ps : List Binding} {ts : List Token} {kind : Bracket} :
      t.symbol = .opening .square → IsParts false ps ts → u.symbol = .closing kind →
      IsPattern (.parts ps) (t :: (ts ++ [u]))
  | object {t u : Token} {ps : List Binding} {ts : List Token} {kind kind' : Bracket} :
      t.symbol = .opening kind → kind ≠ .square → IsParts true ps ts → u.symbol = .closing kind' →
      IsPattern (.parts ps) (t :: (ts ++ [u]))

/-- The tokens of a pattern that may have a default, an expression without commas of its own. -/
inductive IsElement : Binding → List Token → Prop
  | plain {p : Binding} {ts : List Token} : IsPattern p ts → IsElement p ts
  | withDefault {p : Binding} {t : Token} {ts expression : List Token} : IsPattern p ts →
      t.symbol = .mark "=" → Run (fun t => t.isMark "," = false) expression →
      IsElement (.withDefault p (mentionedNames expression [])) (ts ++ t :: expression)

/-- The tokens of a part of an array or of an object. -/
inductive IsPart : Bool → Binding → List Token → Prop
  | element {p : Binding} {ts : List Token} : IsElement p ts → IsPart false p ts
  /-- A name that is its own key. -/
  | shorthand {t : Token} {text : String} {p : Binding} {ts : List Token} :
      t.symbol = .word text → IsElement p (t :: ts) → IsPart true p (t :: ts)
  | keyed {t : Token} {p : Binding} {key ts : List Token} : IsKey key → t.symbol = .mark ":" →
      IsElement p ts → IsPart true p (key ++ t :: ts)
  /-- What the other parts leave over. -/
  | rest {isObject : Bool} {t : Token} {p : Binding} {ts : List Token} :
      t.symbol = .mark "..." → IsPattern p ts → IsPart isObject p (t :: ts)

/-- The tokens of parts between commas. A comma may stand behind the last one, and in front of a
place that is left out. -/
inductive IsParts : Bool → List Binding → List Token → Prop
  | nil {isObject : Bool} : IsParts isObject [] []
  | hole {isObject : Bool} {t : Token} {ps : List Binding} {ts : List Token} :
      t.symbol = .mark "," → IsParts isObject ps ts → IsParts isObject ps (t :: ts)
  | last {isObject : Bool} {p : Binding} {ts : List Token} : IsPart isObject p ts →
      IsParts isObject [p] ts
  | cons {isObject : Bool} {p : Binding} {ps : List Binding} {t : Token} {ts us : List Token} :
      IsPart isObject p ts → t.symbol = .mark "," → IsParts isObject ps us →
      IsParts isObject (p :: ps) (ts ++ t :: us)

end

/-! ## Steps of the reader -/

section Steps

variable {fuel : Nat} {isObject : Bool} {t u : Token} {ts rest more key : List Token}
  {p q : Binding} {kind : Bracket} {text : String}

theorem readBinding_word (word : t.symbol = .word text) (fuel : Nat) (ts : List Token) :
    readBinding (fuel + 1) (t :: ts) = some (.name text, ts) := by
  rw [readBinding, word]

theorem readBinding_array (opens : t.symbol = .opening .square) (fuel : Nat) (ts : List Token) :
    readBinding (fuel + 1) (t :: ts) =
      some (.parts (readParts fuel false ts).1, (readParts fuel false ts).2) := by
  rw [readBinding, opens]

theorem readBinding_object (opens : t.symbol = .opening kind) (other : kind ≠ .square)
    (fuel : Nat) (ts : List Token) :
    readBinding (fuel + 1) (t :: ts) =
      some (.parts (readParts fuel true ts).1, (readParts fuel true ts).2) := by
  rw [readBinding, opens]
  cases kind with
  | square => exact absurd rfl other
  | _ => rfl

theorem readParts_closing (closes : u.symbol = .closing kind) (fuel : Nat) (isObject : Bool)
    (more : List Token) : readParts (fuel + 1) isObject (u :: more) = ([], more) := by
  rw [readParts, closes]

theorem readParts_comma (comma : t.symbol = .mark ",") (fuel : Nat) (isObject : Bool)
    (ts : List Token) : readParts (fuel + 1) isObject (t :: ts) = readParts fuel isObject ts := by
  rw [readParts, comma]
  rfl

theorem readParts_dots (dots : t.symbol = .mark "...") (read : readBinding fuel ts = some (p, rest))
    (isObject : Bool) :
    readParts (fuel + 1) isObject (t :: ts) =
      (p :: (readParts fuel isObject rest).1, (readParts fuel isObject rest).2) := by
  rw [readParts, dots]
  dsimp only
  rw [if_pos rfl, read]

/-- Whether a token may begin a pattern. -/
def Token.BeginsPattern (t : Token) : Prop :=
  (∃ text, t.symbol = .word text) ∨ ∃ kind, t.symbol = .opening kind

theorem readParts_element (begins : t.BeginsPattern) (fuel : Nat) (ts : List Token) :
    readParts (fuel + 1) false (t :: ts) = readPart fuel false (t :: ts) := by
  rw [readParts]
  rcases begins with ⟨text, word⟩ | ⟨kind, opens⟩
  · rw [word]
    rfl
  · rw [opens]
    rfl

theorem readParts_shorthand (word : t.symbol = .word text)
    (unkeyed : ∀ c ∈ ts.head?, c.symbol ≠ .mark ":") (fuel : Nat) :
    readParts (fuel + 1) true (t :: ts) = readPart fuel true (t :: ts) := by
  have key : readKey (t :: ts) = ([t], ts) := by
    rw [readKey, if_neg (by simp [word])]
  rw [readParts, word]
  dsimp only
  rw [if_pos rfl, key]
  dsimp only
  split
  · exact absurd rfl (unkeyed _ rfl)
  · rfl

theorem readKey_eq (h : IsKey key) (more : List Token) : readKey (key ++ more) = (key, more) := by
  cases h with
  | @single t plain _ =>
      rw [List.singleton_append, readKey, if_neg]
      intro opens
      simp [Token.isBracket, opens] at plain
  | @computed t u ts kind opens inside closes =>
      have span : spanFlat (fun _ => false) 0 (ts ++ u :: more) = (ts, u :: more) :=
        (inside.mono fun _ _ => rfl).spanFlat_eq fun _ first =>
          .inr ⟨kind, Option.some.inj first ▸ closes⟩
      rw [List.cons_append, List.append_assoc, List.singleton_append, readKey, if_pos opens, span]
      rfl

theorem readParts_keyed (h : IsKey key) (colon : t.symbol = .mark ":") (fuel : Nat)
    (ts : List Token) :
    readParts (fuel + 1) true (key ++ t :: ts) = readPart fuel true ts := by
  obtain ⟨_, position, onNewLine, afterComment⟩ := t
  obtain rfl : _ = Symbol.mark ":" := colon
  obtain ⟨k, ks, some_token, isBracket, isMark⟩ : ∃ k ks, key = k :: ks ∧
      (∀ kind, k.symbol ≠ .closing kind) ∧ ∀ text, k.symbol ≠ .mark text := by
    cases h with
    | @single t plain other =>
        refine ⟨t, [], rfl, fun kind closes => ?_, other⟩
        simp [Token.isBracket, closes] at plain
    | computed opens _ _ => exact ⟨_, _, rfl, by simp [opens], by simp [opens]⟩
  have read := readKey_eq h (⟨.mark ":", position, onNewLine, afterComment⟩ :: ts)
  rw [some_token, List.cons_append] at read ⊢
  rw [readParts]
  split
  · exact absurd ‹_› (isBracket _)
  · exact absurd ‹_› (isMark _)
  · rw [if_pos rfl, read]
    rfl

theorem readPart_of_readBinding (read : readBinding fuel ts = some (p, rest))
    (behind : readDefault p rest = (q, more)) (isObject : Bool) :
    readPart (fuel + 1) isObject ts =
      (q :: (readParts fuel isObject more).1, (readParts fuel isObject more).2) := by
  rw [readPart, read]
  dsimp only
  rw [behind]

/-- What stands behind a part: a comma, or the bracket that closes the pattern. -/
def EndsPart (ts : List Token) : Prop :=
  ∃ t more, ts = t :: more ∧ (t.symbol = .mark "," ∨ ∃ kind, t.symbol = .closing kind)

theorem EndsPart.ne_mark (h : EndsPart ts) (other : text ≠ ",") :
    ∀ t ∈ ts.head?, t.symbol ≠ .mark text := by
  obtain ⟨t, more, rfl, ends⟩ := h
  rintro t' first same
  obtain rfl : t = t' := Option.some.inj first
  rcases ends with comma | ⟨kind, closes⟩
  · exact other (Symbol.mark.inj (same.symm.trans comma))
  · exact nomatch same.symm.trans closes

theorem readDefault_none (p : Binding) (other : ∀ t ∈ ts.head?, t.symbol ≠ .mark "=") :
    readDefault p ts = (p, ts) := by
  rw [readDefault]
  rintro position onNewLine afterComment more rfl
  exact other _ rfl rfl

theorem readDefault_some (p : Binding) (equals : t.symbol = .mark "=")
    (flat : Run (fun t => t.isMark "," = false) ts) (ends : EndsPart more) :
    readDefault p (t :: (ts ++ more)) = (.withDefault p (mentionedNames ts []), more) := by
  obtain ⟨_, position, onNewLine, afterComment⟩ := t
  obtain rfl : _ = Symbol.mark "=" := equals
  have stops : StopsAt (fun t => t.isMark ",") more := by
    obtain ⟨t, more, rfl, ends⟩ := ends
    rintro t' first
    obtain rfl : t = t' := Option.some.inj first
    exact ends.imp (fun comma => by simp [Token.isMark, comma]) id
  rw [readDefault]
  dsimp only
  rw [flat.spanFlat_eq stops]

end Steps

/-! ## Reading whole patterns -/

theorem IsPattern.begins {p : Binding} {ts : List Token} (h : IsPattern p ts) :
    ∃ t more, ts = t :: more ∧ t.BeginsPattern := by
  cases h with
  | name word => exact ⟨_, _, rfl, .inl ⟨_, word⟩⟩
  | array opens _ _ | object opens _ _ _ => exact ⟨_, _, rfl, .inr ⟨_, opens⟩⟩

theorem IsElement.begins {p : Binding} {ts : List Token} (h : IsElement p ts) :
    ∃ t more, ts = t :: more ∧ t.BeginsPattern := by
  cases h with
  | plain pattern => exact pattern.begins
  | withDefault pattern _ _ =>
      obtain ⟨t, more, rfl, begins⟩ := pattern.begins
      exact ⟨t, _, rfl, begins⟩

/-- Some tokens are read as a pattern, whatever follows. -/
def ReadsPattern (p : Binding) (ts : List Token) : Prop :=
  ∀ fuel : Nat, 2 * ts.length ≤ fuel → ∀ more, readBinding fuel (ts ++ more) = some (p, more)

/-- In front of the end of a part, some tokens are read as a pattern with its default. -/
def ReadsElement (p : Binding) (ts : List Token) : Prop :=
  ∀ fuel : Nat, 2 * ts.length ≤ fuel → ∀ {more : List Token}, EndsPart more → ∀ isObject,
    readPart (fuel + 1) isObject (ts ++ more) =
      (p :: (readParts fuel isObject more).1, (readParts fuel isObject more).2)

/-- In front of its end, some tokens are read as a part, and enough fuel is left for the others. -/
def ReadsPart (isObject : Bool) (p : Binding) (ts : List Token) : Prop :=
  ∀ fuel : Nat, 2 * ts.length ≤ fuel → ∀ {more : List Token}, EndsPart more →
    ∃ fuel' ≥ fuel, readParts (fuel + 2) isObject (ts ++ more) =
      (p :: (readParts fuel' isObject more).1, (readParts fuel' isObject more).2)

/-- Some tokens are read as parts up to the bracket that closes them. -/
def ReadsParts (isObject : Bool) (ps : List Binding) (ts : List Token) : Prop :=
  ∀ fuel : Nat, 2 * (ts.length + 1) ≤ fuel → ∀ {u : Token} {kind : Bracket},
    u.symbol = .closing kind → ∀ more, readParts fuel isObject (ts ++ u :: more) = (ps, more)

section Whole

variable {isObject : Bool} {t u : Token} {ts us key expression : List Token} {p : Binding}
  {ps : List Binding} {kind kind' : Bracket} {text : String}

theorem readsPattern_name (word : t.symbol = .word text) : ReadsPattern (.name text) [t] := by
  intro fuel enough more
  rw [List.length_singleton] at enough
  obtain ⟨fuel, rfl⟩ : ∃ fuel', fuel = fuel' + 1 := Nat.exists_eq_add_of_le' (by omega)
  exact readBinding_word word fuel more

theorem readsPattern_array (opens : t.symbol = .opening .square) (inside : ReadsParts false ps ts)
    (closes : u.symbol = .closing kind) : ReadsPattern (.parts ps) (t :: (ts ++ [u])) := by
  intro fuel enough more
  simp only [List.length_cons, List.length_append, List.length_nil] at enough
  obtain ⟨fuel, rfl⟩ : ∃ fuel', fuel = fuel' + 1 := Nat.exists_eq_add_of_le' (by omega)
  have read := inside fuel (by omega) closes more
  rw [List.cons_append, List.append_assoc, List.singleton_append, readBinding_array opens, read]

theorem readsPattern_object (opens : t.symbol = .opening kind) (other : kind ≠ .square)
    (inside : ReadsParts true ps ts) (closes : u.symbol = .closing kind') :
    ReadsPattern (.parts ps) (t :: (ts ++ [u])) := by
  intro fuel enough more
  simp only [List.length_cons, List.length_append, List.length_nil] at enough
  obtain ⟨fuel, rfl⟩ : ∃ fuel', fuel = fuel' + 1 := Nat.exists_eq_add_of_le' (by omega)
  have read := inside fuel (by omega) closes more
  rw [List.cons_append, List.append_assoc, List.singleton_append, readBinding_object opens other,
    read]

theorem readsElement_plain (pattern : ReadsPattern p ts) : ReadsElement p ts := by
  intro fuel enough more ends isObject
  exact readPart_of_readBinding (pattern fuel enough more)
    (readDefault_none p (ends.ne_mark (by decide))) isObject

theorem readsElement_withDefault (pattern : ReadsPattern p ts) (equals : t.symbol = .mark "=")
    (flat : Run (fun t => t.isMark "," = false) expression) :
    ReadsElement (.withDefault p (mentionedNames expression [])) (ts ++ t :: expression) := by
  intro fuel enough more ends isObject
  rw [List.length_append] at enough
  have read := pattern fuel (by omega) (t :: (expression ++ more))
  rw [List.append_assoc, List.cons_append]
  exact readPart_of_readBinding read (readDefault_some p equals flat ends) isObject

theorem readsPart_element (begins : ∃ t more, ts = t :: more ∧ t.BeginsPattern)
    (element : ReadsElement p ts) : ReadsPart false p ts := by
  obtain ⟨t, rest, rfl, begins⟩ := begins
  intro fuel enough more ends
  refine ⟨fuel, Nat.le_refl _, ?_⟩
  rw [List.cons_append, readParts_element begins]
  exact element fuel enough ends false

theorem readsPart_shorthand (word : t.symbol = .word text)
    (unkeyed : ∀ c ∈ ts.head?, c.symbol ≠ .mark ":") (element : ReadsElement p (t :: ts)) :
    ReadsPart true p (t :: ts) := by
  intro fuel enough more ends
  refine ⟨fuel, Nat.le_refl _, ?_⟩
  have unkeyed' : ∀ c ∈ (ts ++ more).head?, c.symbol ≠ .mark ":" := by
    cases ts with
    | nil => exact ends.ne_mark (by decide)
    | cons c ts => exact unkeyed
  rw [List.cons_append, readParts_shorthand word unkeyed']
  exact element fuel enough ends true

theorem readsPart_keyed (isKey : IsKey key) (colon : t.symbol = .mark ":")
    (element : ReadsElement p ts) : ReadsPart true p (key ++ t :: ts) := by
  intro fuel enough more ends
  rw [List.length_append, List.length_cons] at enough
  refine ⟨fuel, Nat.le_refl _, ?_⟩
  rw [List.append_assoc, List.cons_append, readParts_keyed isKey colon]
  exact element fuel (by omega) ends true

theorem readsPart_rest (dots : t.symbol = .mark "...") (pattern : ReadsPattern p ts) :
    ReadsPart isObject p (t :: ts) := by
  intro fuel enough more ends
  rw [List.length_cons] at enough
  refine ⟨fuel + 1, Nat.le_succ _, ?_⟩
  exact readParts_dots dots (pattern (fuel + 1) (by omega) more) isObject

theorem readsParts_nil : ReadsParts isObject [] [] := by
  intro fuel enough u kind closes more
  obtain ⟨fuel, rfl⟩ : ∃ fuel', fuel = fuel' + 1 := Nat.exists_eq_add_of_le' (by omega)
  exact readParts_closing closes fuel isObject more

theorem readsParts_hole (comma : t.symbol = .mark ",") (others : ReadsParts isObject ps ts) :
    ReadsParts isObject ps (t :: ts) := by
  intro fuel enough u kind closes more
  rw [List.length_cons] at enough
  obtain ⟨fuel, rfl⟩ : ∃ fuel', fuel = fuel' + 1 := Nat.exists_eq_add_of_le' (by omega)
  rw [List.cons_append, readParts_comma comma]
  exact others fuel (by omega) closes more

theorem readsParts_cons (some_token : ts ≠ []) (part : ReadsPart isObject p ts)
    (comma : t.symbol = .mark ",") (others : ReadsParts isObject ps us) :
    ReadsParts isObject (p :: ps) (ts ++ t :: us) := by
  intro fuel enough u kind closes more
  have longer := List.length_pos_iff.mpr some_token
  rw [List.length_append, List.length_cons] at enough
  obtain ⟨fuel, rfl⟩ : ∃ fuel', fuel = fuel' + 2 := Nat.exists_eq_add_of_le' (by omega)
  obtain ⟨fuel', left, read⟩ := part fuel (by omega)
    ⟨t, us ++ u :: more, rfl, .inl comma⟩
  obtain ⟨fuel', rfl⟩ : ∃ fuel'', fuel' = fuel'' + 1 := Nat.exists_eq_add_of_le' (by omega)
  rw [List.append_assoc, List.cons_append, read, readParts_comma comma,
    others fuel' (by omega) closes more]

theorem readsParts_last (some_token : ts ≠ []) (part : ReadsPart isObject p ts) :
    ReadsParts isObject [p] ts := by
  intro fuel enough u kind closes more
  have longer := List.length_pos_iff.mpr some_token
  obtain ⟨fuel, rfl⟩ : ∃ fuel', fuel = fuel' + 2 := Nat.exists_eq_add_of_le' (by omega)
  obtain ⟨fuel', left, read⟩ := part fuel (by omega) ⟨u, more, rfl, .inr ⟨kind, closes⟩⟩
  obtain ⟨fuel', rfl⟩ : ∃ fuel'', fuel' = fuel'' + 1 := Nat.exists_eq_add_of_le' (by omega)
  rw [read, readParts_closing closes]

end Whole

theorem IsPart.ne_nil {isObject : Bool} {p : Binding} {ts : List Token} (h : IsPart isObject p ts) :
    ts ≠ [] := by
  cases h with
  | element element =>
      obtain ⟨t, more, rfl, -⟩ := element.begins
      exact List.cons_ne_nil t more
  | keyed _ _ _ => simp
  | shorthand _ _ | rest _ _ => exact List.cons_ne_nil _ _

/-- Behind a name that is a part of its own stands no colon. -/
theorem IsElement.unkeyed {p : Binding} {t : Token} {text : String} {ts : List Token}
    (h : IsElement p (t :: ts)) (word : t.symbol = .word text) :
    ∀ c ∈ ts.head?, c.symbol ≠ .mark ":" := by
  generalize whole : t :: ts = us at h
  cases h with
  | plain pattern =>
      cases pattern with
      | name _ =>
          obtain rfl := (List.cons.inj whole).2
          exact nofun
      | array opens _ _ | object opens _ _ _ =>
          obtain ⟨rfl, -⟩ := List.cons.inj whole
          rw [word] at opens
          cases opens
  | @withDefault _ t' front expression pattern equals _ =>
      cases pattern with
      | name _ =>
          obtain rfl := (List.cons.inj whole).2
          rintro c first same
          obtain rfl : t' = c := Option.some.inj first
          exact absurd (same.symm.trans equals) (by decide)
      | array opens _ _ | object opens _ _ _ =>
          obtain ⟨rfl, -⟩ := List.cons.inj whole
          rw [word] at opens
          cases opens

mutual

/-- A pattern is read as what it is. -/
theorem IsPattern.reads {p : Binding} {ts : List Token} : IsPattern p ts → ReadsPattern p ts
  | .name word => readsPattern_name word
  | .array opens inside closes => readsPattern_array opens inside.reads closes
  | .object opens other inside closes => readsPattern_object opens other inside.reads closes

theorem IsElement.reads {p : Binding} {ts : List Token} : IsElement p ts → ReadsElement p ts
  | .plain pattern => readsElement_plain pattern.reads
  | .withDefault pattern equals flat => readsElement_withDefault pattern.reads equals flat

theorem IsPart.reads {isObject : Bool} {p : Binding} {ts : List Token} :
    IsPart isObject p ts → ReadsPart isObject p ts
  | .element element => readsPart_element element.begins element.reads
  | .shorthand word element => readsPart_shorthand word (element.unkeyed word) element.reads
  | .keyed isKey colon element => readsPart_keyed isKey colon element.reads
  | .rest dots pattern => readsPart_rest dots pattern.reads

theorem IsParts.reads {isObject : Bool} {ps : List Binding} {ts : List Token} :
    IsParts isObject ps ts → ReadsParts isObject ps ts
  | .nil => readsParts_nil
  | .hole comma others => readsParts_hole comma others.reads
  | .last part => readsParts_last part.ne_nil part.reads
  | .cons part comma others => readsParts_cons part.ne_nil part.reads comma others.reads

end

end CommitSplit.Script
