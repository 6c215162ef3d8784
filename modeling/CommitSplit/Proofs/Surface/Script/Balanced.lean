import CommitSplit.Surface.Script.Reader

/-!
# Tokens whose brackets match

Where brackets match, a reader that counts them comes back to the depth at which it began. Of the
tokens outside of all brackets more can be asked: a run has to satisfy a condition at each of them,
and at the brackets that it opens.
-/

namespace CommitSplit.Script

/-- Whether a token is a bracket. -/
def Token.isBracket (t : Token) : Bool :=
  match t.symbol with
  | .opening _ | .closing _ => true
  | _ => false

/-- Tokens whose brackets match. Those outside of all brackets satisfy the condition. -/
inductive Run : (Token → Prop) → List Token → Prop
  | nil {ok : Token → Prop} : Run ok []
  | single {ok : Token → Prop} {t : Token} {ts : List Token} : ok t → t.isBracket = false →
      Run ok ts → Run ok (t :: ts)
  | group {ok : Token → Prop} {t u : Token} {inside ts : List Token} {kind kind' : Bracket} :
      ok t → t.symbol = .opening kind → Run (fun _ => True) inside → u.symbol = .closing kind' →
      Run ok ts → Run ok (t :: (inside ++ u :: ts))

/-- Tokens whose brackets match. -/
abbrev Balanced : List Token → Prop :=
  Run fun _ => True

variable {ok ok' : Token → Prop} {t u : Token} {ts ts' more : List Token} {kind : Bracket}
  {depth : Nat}

namespace Run

protected theorem append (h : Run ok ts) (h' : Run ok ts') : Run ok (ts ++ ts') := by
  induction h with
  | nil => exact h'
  | single here plain _ ih => exact .single here plain (ih h')
  | group here opens inside closes _ _ ih =>
      rw [List.cons_append, List.append_assoc]
      exact .group here opens inside closes (ih h')

theorem mono (h : Run ok ts) (weaker : ∀ t, ok t → ok' t) : Run ok' ts := by
  induction h with
  | nil => exact .nil
  | single here plain _ ih => exact .single (weaker _ here) plain (ih weaker)
  | group here opens inside closes _ _ ih =>
      exact .group (weaker _ here) opens inside closes (ih weaker)

/-- A pair of brackets with what is inside. -/
theorem pair {kind' : Bracket} (here : ok t) (opens : t.symbol = .opening kind)
    (inside : Balanced ts) (closes : u.symbol = .closing kind') : Run ok (t :: (ts ++ [u])) :=
  .group here opens inside closes .nil

end Run

/-! ## Counting brackets -/

theorem Token.depthAfter_of_plain (h : t.isBracket = false) (depth : Nat) :
    t.depthAfter depth = depth := by
  rw [Token.isBracket] at h
  rw [Token.depthAfter]
  split <;> simp_all

theorem Token.depthAfter_opening (h : t.symbol = .opening kind) (depth : Nat) :
    t.depthAfter depth = depth + 1 := by
  rw [Token.depthAfter, h]

theorem Token.depthAfter_closing (h : t.symbol = .closing kind) (depth : Nat) :
    t.depthAfter depth = depth - 1 := by
  rw [Token.depthAfter, h]

/-! ## Spans -/

variable {stops : Token → Bool}

theorem spanFlat_cons (stays : depth = 0 → stops t = false)
    (closes : depth = 0 → ∀ kind, t.symbol ≠ .closing kind) (ts : List Token) :
    spanFlat stops depth (t :: ts) =
      (t :: (spanFlat stops (t.depthAfter depth) ts).1,
        (spanFlat stops (t.depthAfter depth) ts).2) := by
  rw [spanFlat, if_neg]
  rintro ends
  obtain ⟨outside, ends⟩ : depth = 0 ∧ _ := by simpa using ends
  split at ends
  · exact closes outside _ ‹_›
  · exact Bool.noConfusion ((stays outside).symm.trans ends)

/-- A span goes on behind tokens of which none outside of all brackets stops it. -/
theorem Run.spanFlat_append (h : Run ok ts) (goes_on : ∀ t, ok t → depth = 0 → stops t = false)
    (more : List Token) :
    spanFlat stops depth (ts ++ more) =
      (ts ++ (spanFlat stops depth more).1, (spanFlat stops depth more).2) := by
  induction h generalizing depth more with
  | nil => rfl
  | @single ok t ts here plain _ ih =>
      have open_end : depth = 0 → ∀ kind, t.symbol ≠ .closing kind := by
        rintro - kind closes
        simp [Token.isBracket, closes] at plain
      rw [List.cons_append, spanFlat_cons (goes_on t here) open_end,
        Token.depthAfter_of_plain plain, ih goes_on]
      rfl
  | @group ok t u inside ts kind kind' here opens _ closes _ ihInside ih =>
      have other : depth = 0 → ∀ kind, t.symbol ≠ .closing kind := by simp [opens]
      have inner : depth + 1 ≠ 0 := Nat.succ_ne_zero depth
      rw [List.cons_append, List.append_assoc, List.cons_append,
        spanFlat_cons (goes_on t here) other, Token.depthAfter_opening opens,
        ihInside (fun _ _ outside => absurd outside inner),
        spanFlat_cons (fun outside => absurd outside inner) (fun outside => absurd outside inner),
        Token.depthAfter_closing closes, Nat.succ_sub_one, ih goes_on]
      simp

/-- A span ends in front of these tokens. -/
def StopsAt (stops : Token → Bool) (ts : List Token) : Prop :=
  ∀ t ∈ ts.head?, stops t = true ∨ ∃ kind, t.symbol = .closing kind

theorem spanFlat_of_stopsAt (h : StopsAt stops ts) : spanFlat stops 0 ts = ([], ts) := by
  cases ts with
  | nil => rfl
  | cons t ts =>
      rw [spanFlat, if_pos]
      rcases h t rfl with stop | ⟨kind, closes⟩
      · simp only [stop, decide_true, Bool.true_and]
        split <;> rfl
      · simp [closes]

theorem Run.spanFlat_eq (h : Run (fun t => stops t = false) ts) (ends : StopsAt stops more) :
    spanFlat stops 0 (ts ++ more) = (ts, more) := by
  rw [h.spanFlat_append (fun _ here _ => here), spanFlat_of_stopsAt ends, List.append_nil]

/-! ## Statements -/

theorem exports_cons (dialect : Dialect) (silent : depth = 0 → t.keyword? ≠ some "export")
    (ts : List Token) :
    (readStatements dialect depth (t :: ts)).2 =
      (readStatements dialect (t.depthAfter depth) ts).2 := by
  rw [readStatements]
  dsimp only
  split
  · split <;> rfl
  · rw [if_neg]
    simpa using silent

/-- Tokens outside of all brackets that do not begin an export contribute none. -/
theorem Run.exports_append (h : Run ok ts) (dialect : Dialect)
    (silent : ∀ t, ok t → depth = 0 → t.keyword? ≠ some "export") (more : List Token) :
    (readStatements dialect depth (ts ++ more)).2 = (readStatements dialect depth more).2 := by
  induction h generalizing depth more with
  | nil => rfl
  | @single ok t ts here plain _ ih =>
      rw [List.cons_append, exports_cons dialect (silent t here), Token.depthAfter_of_plain plain,
        ih silent]
  | @group ok t u inside ts kind kind' here opens _ closes _ ihInside ih =>
      have inner : depth + 1 ≠ 0 := Nat.succ_ne_zero depth
      rw [List.cons_append, List.append_assoc, List.cons_append,
        exports_cons dialect (silent t here), Token.depthAfter_opening opens,
        ihInside (fun _ _ outside => absurd outside inner),
        exports_cons dialect (fun outside => absurd outside inner),
        Token.depthAfter_closing closes, Nat.succ_sub_one, ih silent]

end CommitSplit.Script
