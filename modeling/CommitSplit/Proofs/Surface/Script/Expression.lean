import CommitSplit.Proofs.Surface.Script.Balanced

/-!
# Passing types and expressions

Behind a pattern stand a type and an initial value, which are passed over. Angle brackets are
counted in a type. In an expression they may also compare, and only where they match around what a
type may hold are they passed together with the commas inside.
-/

namespace CommitSplit.Script

variable {t u : Token} {ts us more rest : List Token} {kind : Bracket} {types : Bool}
  {depth angles : Nat}

/-! ## Expressions -/

/-- What stands behind the innermost of so many open brackets and those around it. -/
def behindBrackets : Nat → List Token → List Token
  | 0, ts => ts
  | _ + 1, [] => []
  | depth + 1, t :: ts => behindBrackets (t.depthAfter (depth + 1)) ts

@[simp] theorem behindBrackets_zero (ts : List Token) : behindBrackets 0 ts = ts := by
  rw [behindBrackets]

theorem behindBrackets_cons (outside : t.isBracket = false) (depth : Nat) (ts : List Token) :
    behindBrackets (depth + 1) (t :: ts) = behindBrackets (depth + 1) ts := by
  rw [behindBrackets, Token.depthAfter_of_plain outside]

theorem behindBrackets_opening (opens : t.symbol = .opening kind) (depth : Nat) (ts : List Token) :
    behindBrackets (depth + 1) (t :: ts) = behindBrackets (depth + 2) ts := by
  rw [behindBrackets, Token.depthAfter_opening opens]

theorem behindBrackets_closing (closes : t.symbol = .closing kind) (depth : Nat)
    (ts : List Token) : behindBrackets (depth + 1) (t :: ts) = behindBrackets depth ts := by
  rw [behindBrackets, Token.depthAfter_closing closes, Nat.add_sub_cancel]

theorem Run.behindBrackets_append {ok : Token → Prop} (h : Run ok ts) (depth : Nat)
    (more : List Token) :
    behindBrackets (depth + 1) (ts ++ more) = behindBrackets (depth + 1) more := by
  induction h generalizing depth more with
  | nil => rfl
  | single _ outside _ ih => rw [List.cons_append, behindBrackets_cons outside, ih]
  | group _ opens _ closes _ ihInside ih =>
      rw [List.cons_append, List.append_assoc, List.cons_append, behindBrackets_opening opens,
        ihInside, behindBrackets_closing closes, ih]

/-- Type arguments leave all brackets that they open. -/
theorem behindBrackets_of_pastAngles (h : pastAngles angles depth ts = some rest) (outer : Nat) :
    behindBrackets (outer + depth + 1) ts = behindBrackets (outer + 1) rest ∧
      ∃ t arguments, ts = t :: (arguments ++ rest) := by
  induction ts generalizing angles depth with
  | nil => cases h
  | cons t ts ih =>
      have step {angles' depth' : Nat} (h : pastAngles angles' depth' ts = some rest)
          (same : behindBrackets (outer + depth + 1) (t :: ts) =
            behindBrackets (outer + depth' + 1) ts) :
          behindBrackets (outer + depth + 1) (t :: ts) = behindBrackets (outer + 1) rest ∧
            ∃ t' arguments, t :: ts = t' :: (arguments ++ rest) := by
        obtain ⟨left, t', arguments, rfl⟩ := ih h
        exact ⟨same.trans left, t, t' :: arguments, rfl⟩
      have outside (other : t.isBracket = false) :
          behindBrackets (outer + depth + 1) (t :: ts) = behindBrackets (outer + depth + 1) ts :=
        behindBrackets_cons other _ ts
      rw [pastAngles] at h
      split at h
      case h_1 less => exact step h (outside (by rw [Token.isBracket, less]))
      case h_2 greater =>
          have other : t.isBracket = false := by rw [Token.isBracket, greater]
          split at h
          · exact step h (outside other)
          · split at h
            · obtain rfl : depth = 0 := ‹_›
              obtain rfl := Option.some.inj h
              exact ⟨outside other, t, [], rfl⟩
            · cases h
      case h_3 text _ _ mark =>
          split at h
          · exact step h (outside (by rw [Token.isBracket, mark]))
          · cases h
      case h_4 closes =>
          split at h
          · cases h
          · obtain ⟨inner, rfl⟩ := Nat.exists_eq_add_one_of_ne_zero ‹_›
            exact step h (behindBrackets_closing closes _ ts)
      case h_5 opens => exact step h (behindBrackets_opening opens _ ts)
      case h_6 =>
          refine step h (outside ?_)
          rw [Token.isBracket]
          split <;> simp_all

theorem pastExpression_skip (types : Bool) (depth : Nat) (xs ts : List Token) :
    pastExpression types xs.length depth false (xs ++ ts) =
      pastExpression types 0 depth false ts := by
  induction xs with
  | nil => rfl
  | cons x xs ih =>
      rw [List.cons_append, List.length_cons, pastExpression, if_pos (Nat.succ_pos _)]
      exact ih

/-- Type arguments are passed at once. -/
theorem pastExpression_arguments {first : Bool} (less : t.isMark "<" = true)
    (flat : depth = 0 → endsExpression first t = false)
    (matched : pastAngles 0 0 (t :: (ts ++ rest)) = some rest) :
    pastExpression true 0 depth first (t :: (ts ++ rest)) =
      pastExpression true 0 depth false rest := by
  rw [pastExpression, if_neg (Nat.lt_irrefl 0), if_neg (by simpa using flat),
    if_pos (by simp [less]), matched]
  dsimp only
  rw [List.length_append, Nat.add_sub_cancel, pastExpression_skip]

/-- Any other token is passed alone. -/
theorem pastExpression_cons {first : Bool} (flat : depth = 0 → endsExpression first t = false)
    (other : types = true → t.isMark "<" = true → pastAngles 0 0 (t :: ts) = none) :
    pastExpression types 0 depth first (t :: ts) =
      pastExpression types 0 (t.depthAfter depth) false ts := by
  rw [pastExpression, if_neg (Nat.lt_irrefl 0), if_neg (by simpa using flat)]
  split
  case isTrue both =>
    obtain ⟨typed, less⟩ : types = true ∧ t.isMark "<" = true := by simpa using both
    have outside : t.isBracket = false := by
      rw [Token.isMark, decide_eq_true_eq] at less
      rw [Token.isBracket, less]
    rw [other typed less, Token.depthAfter_of_plain outside]
  case isFalse => rfl

/-- Inside of brackets an expression goes on up to where they close. -/
theorem pastExpression_inside (types first : Bool) (depth : Nat) (ts : List Token) :
    pastExpression types 0 (depth + 1) first ts =
      pastExpression types 0 0 false (behindBrackets (depth + 1) ts) := by
  match ts with
  | [] => rfl
  | t :: ts =>
      have inner : depth + 1 = 0 → endsExpression first t = false := nofun
      by_cases matched : types = true ∧ t.isMark "<" = true ∧ (pastAngles 0 0 (t :: ts)).isSome
      · obtain ⟨rfl, less, some_rest⟩ := matched
        obtain ⟨rest, matched⟩ := Option.isSome_iff_exists.mp some_rest
        obtain ⟨left, t', arguments, same⟩ := behindBrackets_of_pastAngles matched depth
        obtain ⟨rfl, rfl⟩ := List.cons.inj same
        rw [pastExpression_arguments less inner matched,
          pastExpression_inside true false depth rest]
        exact congrArg (pastExpression true 0 0 false) left.symm
      · have other : types = true → t.isMark "<" = true → pastAngles 0 0 (t :: ts) = none := by
          intro typed less
          exact Option.not_isSome_iff_eq_none.mp fun some_rest => matched ⟨typed, less, some_rest⟩
        rw [pastExpression_cons inner other, behindBrackets]
        cases t.depthAfter (depth + 1) with
        | zero => rw [behindBrackets_zero]
        | succ depth' => exact pastExpression_inside types false depth' ts
termination_by ts.length

/-- The tokens of an expression in front of some others; the first of a value does not begin another
statement. With types, angle brackets that match are passed with what is inside. -/
inductive IsExpression (types : Bool) : Bool → List Token → List Token → Prop
  | nil {more : List Token} : IsExpression types false [] more
  | single {first : Bool} {t : Token} {ts more : List Token} : t.isBracket = false →
      endsExpression first t = false →
      (types = true → t.isMark "<" = true → pastAngles 0 0 (t :: (ts ++ more)) = none) →
      IsExpression types false ts more → IsExpression types first (t :: ts) more
  | group {first : Bool} {t u : Token} {inside ts more : List Token} {kind kind' : Bracket} :
      t.symbol = .opening kind → endsExpression first t = false → Balanced inside →
      u.symbol = .closing kind' → IsExpression types false ts more →
      IsExpression types first (t :: (inside ++ u :: ts)) more
  | arguments {first : Bool} {t : Token} {inside ts more : List Token} : types = true →
      t.isMark "<" = true → endsExpression first t = false →
      pastAngles 0 0 (t :: (inside ++ (ts ++ more))) = some (ts ++ more) →
      IsExpression types false ts more → IsExpression types first (t :: (inside ++ ts)) more

theorem pastExpression_ends (ends : ∀ t ∈ more.head?, endsExpression false t = true) :
    pastExpression types 0 0 false more = more := by
  cases more with
  | nil => rfl
  | cons t more => rw [pastExpression, if_neg (Nat.lt_irrefl 0), if_pos (by simp [ends t rfl])]

/-- An expression is passed up to the token that ends it. -/
theorem IsExpression.past {first : Bool} (h : IsExpression types first ts more)
    (ends : ∀ t ∈ more.head?, endsExpression false t = true) :
    pastExpression types 0 0 first (ts ++ more) = more := by
  induction h with
  | nil => exact pastExpression_ends ends
  | single outside goes_on other _ ih =>
      rw [List.cons_append, pastExpression_cons (fun _ => goes_on) other,
        Token.depthAfter_of_plain outside]
      exact ih ends
  | @group first t u inside ts more kind kind' opens goes_on balanced closes _ ih =>
      have other : types = true → t.isMark "<" = true →
          pastAngles 0 0 (t :: (inside ++ u :: (ts ++ more))) = none := by
        simp [Token.isMark, opens]
      rw [List.cons_append, List.append_assoc, List.cons_append,
        pastExpression_cons (fun _ => goes_on) other, Token.depthAfter_opening opens,
        pastExpression_inside, balanced.behindBrackets_append, behindBrackets_closing closes,
        behindBrackets_zero]
      exact ih ends
  | arguments typed less goes_on matched _ ih =>
      obtain rfl := typed
      rw [List.cons_append, List.append_assoc,
        pastExpression_arguments less (fun _ => goes_on) matched]
      exact ih ends

/-! ## Types -/

/-- Whether a type may end behind a token. -/
def Token.mayEndType (t : Token) : Bool :=
  match t.symbol with
  | .mark _ => false
  | .word text => text ∉ typeOperators
  | _ => true

section Steps

variable {complete : Bool}

theorem pastType_single (stays : angles = 0 → depth = 0 → endsType complete t = false)
    (outside : t.isBracket = false) (other : t.isMark "<" = false ∧ t.isMark ">" = false)
    (ts : List Token) :
    pastType angles depth complete (t :: ts) = pastType angles depth t.mayEndType ts := by
  obtain ⟨symbol, position, onNewLine, afterComment⟩ := t
  rw [pastType, if_neg (by simpa using stays)]
  split
  case h_1 less =>
      obtain rfl : symbol = .mark "<" := less
      exact absurd other.1 (by simp [Token.isMark])
  case h_2 greater =>
      obtain rfl : symbol = .mark ">" := greater
      exact absurd other.2 (by simp [Token.isMark])
  case h_3 mark =>
      obtain rfl : symbol = .mark _ := mark
      rfl
  case h_4 word =>
      obtain rfl : symbol = .word _ := word
      rfl
  case h_5 opens =>
      obtain rfl : symbol = .opening _ := opens
      cases outside
  case h_6 =>
      cases symbol with
      | closing _ => cases outside
      | _ => simp_all [Token.mayEndType, Token.depthAfter]

theorem pastType_opening (stays : angles = 0 → depth = 0 → endsType complete t = false)
    (opens : t.symbol = .opening kind) (ts : List Token) :
    pastType angles depth complete (t :: ts) = pastType angles (depth + 1) false ts := by
  rw [pastType, if_neg (by simpa using stays), opens]

theorem pastType_closing (closes : t.symbol = .closing kind) (ts : List Token) :
    pastType angles (depth + 1) complete (t :: ts) = pastType angles depth true ts := by
  rw [pastType, if_neg (by simp), Token.depthAfter_closing closes, closes]
  rfl

theorem pastType_less (stays : angles = 0 → depth = 0 → endsType complete t = false)
    (less : t.symbol = .mark "<") (ts : List Token) :
    pastType angles depth complete (t :: ts) = pastType (angles + 1) depth false ts := by
  rw [pastType, if_neg (by simpa using stays), less]
  rfl

theorem pastType_greater (greater : t.symbol = .mark ">") (ts : List Token) :
    pastType (angles + 1) depth complete (t :: ts) = pastType angles depth true ts := by
  rw [pastType, if_neg (by simp), greater]
  rfl

end Steps

/-- Tokens of a type whose brackets and angle brackets match. -/
inductive IsNested : List Token → Prop
  | nil : IsNested []
  | single {t : Token} {ts : List Token} : t.isBracket = false →
      t.isMark "<" = false ∧ t.isMark ">" = false → IsNested ts → IsNested (t :: ts)
  | group {t u : Token} {inside ts : List Token} {kind kind' : Bracket} :
      t.symbol = .opening kind → IsNested inside → u.symbol = .closing kind' → IsNested ts →
      IsNested (t :: (inside ++ u :: ts))
  | angles {t u : Token} {inside ts : List Token} : t.symbol = .mark "<" → IsNested inside →
      u.symbol = .mark ">" → IsNested ts → IsNested (t :: (inside ++ u :: ts))

theorem IsNested.past (h : IsNested ts) (inner : 0 < angles + depth) (complete : Bool)
    (more : List Token) :
    ∃ complete', pastType angles depth complete (ts ++ more) =
      pastType angles depth complete' more := by
  induction h generalizing angles depth complete more with
  | nil => exact ⟨complete, rfl⟩
  | single outside other _ ih =>
      rw [List.cons_append, pastType_single (by omega) outside other]
      exact ih inner _ more
  | @group t u inside ts kind kind' opens _ closes _ ihInside ih =>
      have deeper : 0 < angles + (depth + 1) := by omega
      obtain ⟨complete', past⟩ := ihInside deeper false (u :: (ts ++ more))
      rw [List.cons_append, List.append_assoc, List.cons_append,
        pastType_opening (by omega) opens, past, pastType_closing closes]
      exact ih inner _ more
  | @angles t u inside ts less _ greater _ ihInside ih =>
      have deeper : 0 < angles + 1 + depth := by omega
      obtain ⟨complete', past⟩ := ihInside deeper false (u :: (ts ++ more))
      rw [List.cons_append, List.append_assoc, List.cons_append, pastType_less (by omega) less,
        past, pastType_greater greater]
      exact ih inner _ more

/-- The tokens of a type, with whether the type may end in front of them and behind them. -/
inductive IsType : Bool → List Token → Bool → Prop
  | nil {complete : Bool} : IsType complete [] complete
  | single {complete complete' : Bool} {t : Token} {ts : List Token} : t.isBracket = false →
      t.isMark "<" = false ∧ t.isMark ">" = false → endsType complete t = false →
      IsType t.mayEndType ts complete' → IsType complete (t :: ts) complete'
  | group {complete complete' : Bool} {t u : Token} {inside ts : List Token}
      {kind kind' : Bracket} : t.symbol = .opening kind → endsType complete t = false →
      IsNested inside → u.symbol = .closing kind' → IsType true ts complete' →
      IsType complete (t :: (inside ++ u :: ts)) complete'
  | angles {complete complete' : Bool} {t u : Token} {inside ts : List Token} :
      t.symbol = .mark "<" → endsType complete t = false → IsNested inside →
      u.symbol = .mark ">" → IsType true ts complete' →
      IsType complete (t :: (inside ++ u :: ts)) complete'

/-- A type is passed up to the token that ends it. -/
theorem IsType.past {complete complete' : Bool} (h : IsType complete ts complete')
    (ends : ∀ t ∈ more.head?, endsType complete' t = true) :
    pastType 0 0 complete (ts ++ more) = more := by
  induction h with
  | nil =>
      cases more with
      | nil => rfl
      | cons t more =>
          rw [List.nil_append, pastType, if_pos]
          simpa using ends t rfl
  | single outside other goes_on _ ih =>
      rw [List.cons_append, pastType_single (fun _ _ => goes_on) outside other]
      exact ih ends
  | @group _ _ t u inside ts kind kind' opens goes_on nested closes _ ih =>
      have inner : 0 < 0 + 1 := Nat.zero_lt_one
      obtain ⟨_, past⟩ := nested.past inner false (u :: (ts ++ more))
      rw [List.cons_append, List.append_assoc, List.cons_append,
        pastType_opening (fun _ _ => goes_on) opens, past, pastType_closing closes]
      exact ih ends
  | @angles _ _ t u inside ts less goes_on nested greater _ ih =>
      have inner : 0 < 1 + 0 := Nat.zero_lt_one
      obtain ⟨_, past⟩ := nested.past inner false (u :: (ts ++ more))
      rw [List.cons_append, List.append_assoc, List.cons_append,
        pastType_less (fun _ _ => goes_on) less, past, pastType_greater greater]
      exact ih ends

end CommitSplit.Script
