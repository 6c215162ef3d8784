import Mathlib.Data.List.Forall2

/-!
# Attempts

An attempt is a result that may fail, and a sequence of attempts succeeds exactly when each of them
does. These are the inversions that take a successful computation apart.
-/

namespace CommitSplit.Attempt

variable {ε δ α β γ ζ : Type}

theorem bind_eq_ok_iff {result : Except ε α} {f : α → Except ε β} {b : β} :
    (result >>= f) = .ok b ↔ ∃ a, result = .ok a ∧ f a = .ok b := by
  cases result with
  | error e => exact ⟨nofun, nofun⟩
  | ok a => exact ⟨fun h => ⟨a, rfl, h⟩, by rintro ⟨_, ⟨⟩, h⟩; exact h⟩

theorem map_eq_ok_iff {result : Except ε α} {f : α → β} {b : β} :
    result.map f = .ok b ↔ ∃ a, result = .ok a ∧ f a = b := by
  cases result with
  | error e => exact ⟨nofun, nofun⟩
  | ok a => simp [Except.map]

theorem map_eq_error_iff {result : Except ε α} {f : α → β} {e : ε} :
    result.map f = .error e ↔ result = .error e := by
  cases result with
  | error e' => exact ⟨fun h => by cases h; rfl, fun h => by cases h; rfl⟩
  | ok a => exact ⟨nofun, nofun⟩

@[simp] theorem mapError_eq_ok_iff {result : Except ε α} {f : ε → δ} {a : α} :
    result.mapError f = .ok a ↔ result = .ok a := by
  cases result with
  | error e => exact ⟨nofun, nofun⟩
  | ok a => simp [Except.mapError]

/-- All calls succeed, each with its own result. -/
theorem mapM_eq_ok_iff {f : α → Except ε β} {xs : List α} {ys : List β} :
    xs.mapM f = .ok ys ↔ List.Forall₂ (fun x y => f x = .ok y) xs ys := by
  induction xs generalizing ys with
  | nil =>
      rw [List.mapM_nil, List.forall₂_nil_left_iff]
      exact ⟨fun h => by cases h; rfl, fun h => h ▸ rfl⟩
  | cons x xs ih =>
      rw [List.mapM_cons, List.forall₂_cons_left_iff, bind_eq_ok_iff]
      constructor
      · rintro ⟨y, first, rest⟩
        obtain ⟨ys, others, ⟨⟩⟩ := bind_eq_ok_iff.mp rest
        exact ⟨y, ys, first, ih.mp others, rfl⟩
      · rintro ⟨y, ys, first, others, rfl⟩
        exact ⟨y, first, bind_eq_ok_iff.mpr ⟨ys, ih.mpr others, rfl⟩⟩

/-- Looking at all results of a sequence is looking at each of them. -/
theorem map_mapM (g : β → γ) (f : α → Except ε β) (xs : List α) :
    (xs.mapM f).map (List.map g) = xs.mapM fun x => (f x).map g := by
  induction xs with
  | nil => rfl
  | cons x xs ih =>
      rw [List.mapM_cons, List.mapM_cons, ← ih]
      cases f x with
      | error e => rfl
      | ok y => cases xs.mapM f <;> rfl

/-- When a sequence of attempts succeeds, so does each of them. -/
theorem exists_of_mapM_eq_ok {f : α → Except ε β} {xs : List α} {ys : List β}
    (passed : xs.mapM f = .ok ys) {x : α} (hx : x ∈ xs) : ∃ y, f x = .ok y := by
  have each := mapM_eq_ok_iff.mp passed
  clear passed
  induction each with
  | nil => cases hx
  | cons first _ ih =>
      rcases List.mem_cons.mp hx with rfl | there
      · exact ⟨_, first⟩
      · exact ih there

/-- Every result of a sequence of attempts is the result of one of them. -/
theorem exists_of_mem_of_mapM_eq_ok {f : α → Except ε β} {xs : List α} {ys : List β}
    (passed : xs.mapM f = .ok ys) {y : β} (hy : y ∈ ys) : ∃ x ∈ xs, f x = .ok y := by
  have each := mapM_eq_ok_iff.mp passed
  clear passed
  induction each with
  | nil => cases hy
  | @cons x _ xs _ first _ ih =>
      rcases List.mem_cons.mp hy with rfl | there
      · exact ⟨x, List.mem_cons_self, first⟩
      · obtain ⟨x', hx', passed⟩ := ih there
        exact ⟨x', List.mem_cons_of_mem x hx', passed⟩

/-- A sequence of attempts that fails does so at one of its elements. -/
theorem exists_of_mapM_eq_error {f : α → Except ε β} {xs : List α} {e : ε}
    (failed : xs.mapM f = .error e) : ∃ x ∈ xs, f x = .error e := by
  induction xs with
  | nil => cases failed
  | cons x xs ih =>
      rw [List.mapM_cons] at failed
      cases first : f x with
      | error e' =>
          rw [first] at failed
          cases failed
          exact ⟨x, List.mem_cons_self, first⟩
      | ok b =>
          rw [first] at failed
          cases rest : xs.mapM f with
          | error e' =>
              rw [rest] at failed
              cases failed
              obtain ⟨y, there, failed⟩ := ih rest
              exact ⟨y, List.mem_cons_of_mem x there, failed⟩
          | ok bs =>
              rw [rest] at failed
              cases failed

/-- A sequence of attempts fails exactly when one of them does. -/
theorem exists_mapM_eq_error_iff {f : α → Except ε β} {xs : List α} :
    (∃ e, xs.mapM f = .error e) ↔ ∃ x ∈ xs, ∃ e, f x = .error e := by
  constructor
  · rintro ⟨e, failed⟩
    obtain ⟨x, there, failed⟩ := exists_of_mapM_eq_error failed
    exact ⟨x, there, e, failed⟩
  · rintro ⟨x, there, e, failed⟩
    cases passed : xs.mapM f with
    | error e' => exact ⟨e', rfl⟩
    | ok ys =>
        obtain ⟨y, ok⟩ := exists_of_mapM_eq_ok passed there
        rw [failed] at ok
        cases ok

/-- Attempts that pass a value on fail at one of them, with the value that those in front of it
left. -/
theorem exists_of_foldlM_eq_error {f : α → β → Except ε α} {xs : List β} {a : α} {e : ε}
    (failed : xs.foldlM f a = .error e) :
    ∃ front x behind a', xs = front ++ x :: behind ∧ front.foldlM f a = .ok a' ∧
      f a' x = .error e := by
  induction xs generalizing a with
  | nil => cases failed
  | cons x xs ih =>
      rw [List.foldlM_cons] at failed
      cases first : f a x with
      | error e' =>
          rw [first] at failed
          cases failed
          exact ⟨[], x, xs, a, rfl, rfl, first⟩
      | ok a' =>
          rw [first] at failed
          obtain ⟨front, y, behind, a'', rfl, passed, failed⟩ := ih failed
          refine ⟨x :: front, y, behind, a'', rfl, ?_, failed⟩
          rw [List.foldlM_cons, first]
          exact passed

/-- Two attempts that both succeed, with related values, or both fail. -/
inductive EndAlike (related : α → β → Prop) : Except ε α → Except ε β → Prop
  | ok {a : α} {b : β} : related a b → EndAlike related (.ok a) (.ok b)
  | error {e e' : ε} : EndAlike related (.error e) (.error e')

/-- What goes on from related values in the same way ends alike. -/
theorem EndAlike.bind {related : α → β → Prop} {related' : γ → ζ → Prop} {first : Except ε α}
    {second : Except ε β} {f : α → Except ε γ} {g : β → Except ε ζ}
    (h : EndAlike related first second)
    (rest : ∀ a b, related a b → EndAlike related' (f a) (g b)) :
    EndAlike related' (first >>= f) (second >>= g) := by
  cases h with
  | ok same => exact rest _ _ same
  | error => exact .error

/-- Attempts that cannot succeed end alike. -/
theorem EndAlike.of_ne_ok {related : α → β → Prop} {first : Except ε α} {second : Except ε β}
    (fails : ∀ a, first ≠ .ok a) (fails' : ∀ b, second ≠ .ok b) :
    EndAlike related first second := by
  cases first with
  | ok a => exact absurd rfl (fails a)
  | error e =>
      cases second with
      | ok b => exact absurd rfl (fails' b)
      | error e' => exact .error

/-- Two attempts that both succeed, with related values, or both fail with one error. -/
inductive EndSame (related : α → β → Prop) : Except ε α → Except ε β → Prop
  | ok {a : α} {b : β} : related a b → EndSame related (.ok a) (.ok b)
  | error {e : ε} : EndSame related (.error e) (.error e)

end CommitSplit.Attempt
