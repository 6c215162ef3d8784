import CommitSplit.Text.Blank
import Mathlib.Data.Bool.AllAny
import Mathlib.Data.List.TakeWhile

/-!
# Trimming and splitting

Trimming leaves characters out at the ends only, so a text that changes under it gets shorter. The
pieces between separators hold the characters of the text without the separators, and joining them
again gives the text back.
-/

namespace CommitSplit.Text

theorem dropEndWhile_sublist (p : α → Bool) (xs : List α) : (dropEndWhile p xs).Sublist xs := by
  have front : ((xs.reverse.dropWhile p).reverse).Sublist xs.reverse.reverse :=
    (List.dropWhile_sublist p).reverse
  rwa [List.reverse_reverse] at front

theorem trimChars_sublist (cs : List Char) : (trimChars cs).Sublist cs :=
  (dropEndWhile_sublist _ _).trans (List.dropWhile_sublist _)

theorem length_trimChars_lt {cs : List Char} (h : trimChars cs ≠ cs) :
    (trimChars cs).length < cs.length := by
  have le := (trimChars_sublist cs).length_le
  have ne : (trimChars cs).length ≠ cs.length :=
    fun same => h ((trimChars_sublist cs).eq_of_length same)
  omega

theorem dropWhile_eq_self_iff {p : α → Bool} {xs : List α} :
    xs.dropWhile p = xs ↔ ∀ x ∈ xs.head?, p x = false := by
  cases xs with
  | nil => simp
  | cons x xs => simp [List.dropWhile_eq_self_iff]

theorem dropEndWhile_eq_self_iff {p : α → Bool} {xs : List α} :
    dropEndWhile p xs = xs ↔ ∀ x ∈ xs.getLast?, p x = false := by
  rw [dropEndWhile, List.reverse_eq_iff, dropWhile_eq_self_iff, List.head?_reverse]

theorem dropEndWhile_of_forall {p : α → Bool} {xs : List α} (h : ∀ x ∈ xs, p x = false) :
    dropEndWhile p xs = xs :=
  dropEndWhile_eq_self_iff.mpr fun x last => h x (List.mem_of_getLast? last)

/-- Nothing in front of an element that stays is dropped. -/
theorem dropEndWhile_append_cons {p : α → Bool} {x : α} (stays : p x = false) (xs ys : List α) :
    dropEndWhile p (xs ++ x :: ys) = xs ++ x :: dropEndWhile p ys := by
  have reversed : (xs ++ x :: ys).reverse = ys.reverse ++ x :: xs.reverse := by simp
  rw [dropEndWhile, dropEndWhile, reversed, List.dropWhile_append]
  split
  · rename_i all_dropped
    simp [List.isEmpty_iff.mp all_dropped, stays]
  · simp

/-- A text that neither begins nor ends with a blank. -/
structure IsTrimmed (cs : List Char) : Prop where
  first : ∀ c ∈ cs.head?, isBlank c = false
  last : ∀ c ∈ cs.getLast?, isBlank c = false

theorem trimChars_eq_self_iff {cs : List Char} : trimChars cs = cs ↔ IsTrimmed cs := by
  constructor
  · intro same
    have kept : cs.dropWhile isBlank = cs := by
      have shorter := (dropEndWhile_sublist isBlank (cs.dropWhile isBlank)).length_le
      rw [← trimChars, same] at shorter
      exact (List.dropWhile_sublist _).eq_of_length_le shorter
    rw [trimChars, kept] at same
    exact ⟨dropWhile_eq_self_iff.mp kept, dropEndWhile_eq_self_iff.mp same⟩
  · rintro ⟨first, last⟩
    rw [trimChars, dropWhile_eq_self_iff.mpr first, dropEndWhile_eq_self_iff.mpr last]

/-- Nothing is trimmed off a text without blanks. -/
theorem trimChars_of_forall {cs : List Char} (h : ∀ c ∈ cs, isBlank c = false) :
    trimChars cs = cs :=
  trimChars_eq_self_iff.mpr
    ⟨fun c first => h c (List.mem_of_head? first), fun c last => h c (List.mem_of_getLast? last)⟩

theorem head?_dropWhile {p : α → Bool} {xs : List α} :
    ∀ x ∈ (xs.dropWhile p).head?, p x = false := by
  intro x first
  have stays := List.head?_dropWhile_not p xs
  rwa [Option.mem_def.mp first] at stays

theorem isTrimmed_trimChars (cs : List Char) : IsTrimmed (trimChars cs) where
  first c first := by
    have front : trimChars cs <+: cs.dropWhile isBlank := by
      rw [trimChars, dropEndWhile, ← List.reverse_suffix, List.reverse_reverse]
      exact List.dropWhile_suffix _
    obtain ⟨behind, whole⟩ := front
    apply head?_dropWhile c
    rw [← whole, List.head?_append, Option.mem_def.mp first]
    rfl
  last c last := by
    rw [trimChars, dropEndWhile, List.getLast?_reverse] at last
    exact head?_dropWhile c last

@[simp] theorem trimChars_trimChars (cs : List Char) : trimChars (trimChars cs) = trimChars cs :=
  trimChars_eq_self_iff.mpr (isTrimmed_trimChars cs)

theorem isBlank_of_isDigit {c : Char} (h : c.isDigit = true) : isBlank c = false := by
  have range : 48 ≤ c.toNat ∧ c.toNat ≤ 57 := by
    simpa [Char.isDigit, UInt32.le_iff_toNat_le] using h
  rw [Bool.eq_false_iff]
  simp only [isBlank, inRanges, blankRanges, List.any_cons, List.any_nil, Bool.or_false,
    ne_eq, Bool.or_eq_true, Bool.and_eq_true, decide_eq_true_eq]
  omega

/-! ## Pieces -/

variable {separator : Char} {cs piece : List Char} {pieces : List (List Char)}

theorem splitOn_eq (separator : Char) (cs : List Char) :
    splitOn separator cs = cs.splitOn separator := by
  simp only [splitOn, List.splitOn_eq_splitOnP, beq_eq_decide]

@[simp] theorem splitOn_nil (separator : Char) : splitOn separator [] = [[]] := rfl

theorem splitOn_cons (separator c : Char) (cs : List Char) :
    splitOn separator (c :: cs) =
      if c = separator then [] :: splitOn separator cs
      else (splitOn separator cs).modifyHead (List.cons c) := by
  simp [splitOn_eq, List.splitOn_cons_eq_if_modifyHead]

@[simp] theorem splitOn_ne_nil (separator : Char) (cs : List Char) : splitOn separator cs ≠ [] := by
  simp [splitOn_eq]

/-- The pieces on both sides of a separator are the pieces of the whole. -/
theorem splitOn_append (separator : Char) (front rest : List Char) :
    splitOn separator (front ++ separator :: rest) =
      splitOn separator front ++ splitOn separator rest :=
  List.splitOnP_append_cons front rest (decide_eq_true rfl)

/-- A piece holds characters of the text, none of them a separator. -/
theorem of_mem_splitOn (h : piece ∈ splitOn separator cs) :
    separator ∉ piece ∧ ∀ c ∈ piece, c ∈ cs := by
  induction cs generalizing piece with
  | nil =>
      obtain rfl : piece = [] := by simpa using h
      simp
  | cons c cs ih =>
      rw [splitOn_cons] at h
      split at h
      · rcases List.mem_cons.mp h with rfl | later
        · simp
        · exact ⟨(ih later).1, fun d hd => List.mem_cons_of_mem c ((ih later).2 d hd)⟩
      · rename_i other
        obtain ⟨first, pieces, split⟩ := List.exists_cons_of_ne_nil (splitOn_ne_nil separator cs)
        rw [split, List.modifyHead_cons] at h
        rcases List.mem_cons.mp h with rfl | later
        · obtain ⟨apart, inside⟩ := ih (split ▸ List.mem_cons_self)
          refine ⟨?_, ?_⟩
          · simp [apart, Ne.symm other]
          · intro d hd
            rcases List.mem_cons.mp hd with rfl | hd
            · exact List.mem_cons_self
            · exact List.mem_cons_of_mem c (inside d hd)
        · obtain ⟨apart, inside⟩ := ih (split ▸ List.mem_cons_of_mem _ later)
          exact ⟨apart, fun d hd => List.mem_cons_of_mem c (inside d hd)⟩

theorem intercalate_splitOn (separator : Char) (cs : List Char) :
    [separator].intercalate (splitOn separator cs) = cs := by
  rw [splitOn_eq, List.intercalate_splitOn]

theorem splitOn_intercalate (apart : ∀ piece ∈ pieces, separator ∉ piece)
    (some_piece : pieces ≠ []) :
    splitOn separator ([separator].intercalate pieces) = pieces := by
  rw [splitOn_eq, List.splitOn_intercalate separator apart some_piece]

theorem notMem_intercalate {c : Char} (other : c ≠ separator)
    (apart : ∀ piece ∈ pieces, c ∉ piece) :
    c ∉ [separator].intercalate pieces := by
  induction pieces with
  | nil => exact List.not_mem_nil
  | cons piece pieces ih =>
      obtain ⟨first, apart⟩ := List.forall_mem_cons.mp apart
      rcases eq_or_ne pieces [] with rfl | more
      · rwa [List.intercalate_singleton]
      · simp [List.intercalate_cons_of_ne_nil more, first, other, ih apart]

/-- Joined pieces end as the last of them does. -/
theorem getLast?_intercalate (last : pieces.getLast? = some piece) (some_char : piece ≠ []) :
    ([separator].intercalate pieces).getLast? = piece.getLast? := by
  induction pieces with
  | nil => cases last
  | cons first pieces ih =>
      rcases eq_or_ne pieces [] with rfl | more
      · rw [List.getLast?_singleton] at last
        rw [List.intercalate_singleton, Option.some.inj last]
      · rw [List.getLast?_cons_of_ne_nil more] at last
        rw [List.intercalate_cons_of_ne_nil more, List.getLast?_append, ih last,
          Option.or_of_isSome (by simpa using some_char)]

end CommitSplit.Text
