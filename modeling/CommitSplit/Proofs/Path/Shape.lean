import CommitSplit.Path.Name
import CommitSplit.Proofs.Path.Normal
import Mathlib.Logic.Function.Iterate

/-!
# The shape of normal paths

Whatever a text is, its normal form has slashes only, no empty segment and no `.`, and `..` only in
front of all other segments of a relative path. So its segments can be read off between its slashes.
Nothing but a blank at one of its ends can keep such a text from being the normal form of itself,
and since normalizing then makes it shorter, normalizing again and again comes to an end.
-/

namespace CommitSplit.Path

variable {absolute : Bool} {segments : List Segment}

/-- The segments between the slashes of a path; the slash that it may begin with is in front of the
first. Without anything but that slash there is no segment. -/
def writtenSegments (path : List Char) : List Segment :=
  let body := if path.head? = some '/' then path.tail else path
  if body = [] then [] else Text.splitOn '/' body

theorem joinSegments_eq_nil_iff (named : ∀ s ∈ segments, s ≠ []) :
    joinSegments segments = [] ↔ segments = [] := by
  cases segments with
  | nil => simp [joinSegments]
  | cons s rest =>
      have first := named s List.mem_cons_self
      rcases eq_or_ne rest [] with rfl | more
      · simpa [joinSegments] using first
      · simp [joinSegments_cons s more]

/-- Between the slashes of a spelled path stand the segments that it was spelled from. -/
theorem IsSpelled.writtenSegments_eq {path : List Char} (h : IsSpelled absolute segments path) :
    writtenSegments path = segments := by
  have read : (if joinSegments segments = [] then [] else
      Text.splitOn '/' (joinSegments segments)) = segments := by
    split
    · rename_i nothing
      exact ((joinSegments_eq_nil_iff h.named).mp nothing).symm
    · rename_i something
      exact Text.splitOn_intercalate h.slash_not_mem fun none => something (by rw [none]; rfl)
  have rooted := h.head?_eq
  rw [h.spell_eq] at rooted ⊢
  cases absolute with
  | true => exact read
  | false =>
      have relative : (joinSegments segments).head? ≠ some '/' := by simpa [spell] using rooted
      rw [spell, if_neg Bool.false_ne_true, writtenSegments, if_neg relative]
      exact read

theorem IsSpelled.isAbsolute_ofList {path : List Char} (h : IsSpelled absolute segments path) :
    isAbsolute (String.ofList path) = absolute := by
  rw [isAbsolute, String.toList_ofList, ← h.head?_eq, beq_eq_decide]

/-! ## Normalizing again -/

theorem normalize_eq_self_iff (raw : String) :
    normalize (normalize raw) = normalize raw ↔ Text.IsTrimmed (normalize raw).toList := by
  constructor
  · exact isTrimmed_of_fixed
  · intro trimmed
    rw [normalize, String.toList_ofList] at trimmed
    simp [normalize, normalizeChars_of_trimmed trimmed]

/-- Each time the text gets shorter or stays as it is, so it stays after as many times as it has
characters. -/
theorem exists_iterate_fixed (raw : String) :
    ∃ n ≤ (normalize raw).length,
      normalize (normalize^[n] (normalize raw)) = normalize^[n] (normalize raw) := by
  generalize bounded : (normalize raw).length = bound
  replace bounded := bounded.le
  induction bound generalizing raw with
  | zero =>
      rcases normalize_normalize raw with same | shorter
      · exact ⟨0, le_rfl, same⟩
      · omega
  | succ bound ih =>
      rcases normalize_normalize raw with same | shorter
      · exact ⟨0, Nat.zero_le _, same⟩
      · obtain ⟨n, few, fixed⟩ := ih (normalize raw) (by omega)
        exact ⟨n + 1, Nat.succ_le_succ few, fixed⟩

/-- What every normal form looks like, and when it is the normal form of itself. -/
theorem normalize_shape (raw : String) :
    '\\' ∉ (normalize raw).toList ∧
      IsNormal (isAbsolute (normalize raw)) (writtenSegments (normalize raw).toList) ∧
      (normalize (normalize raw) = normalize raw ↔ Text.IsTrimmed (normalize raw).toList) ∧
      (¬Text.IsTrimmed (normalize raw).toList →
        (normalize (normalize raw)).length < (normalize raw).length) ∧
      ∃ n ≤ (normalize raw).length,
        normalize (normalize^[n] (normalize raw)) = normalize^[n] (normalize raw) := by
  have spelled := isSpelled_normalizeChars raw.toList
  have chars : (normalize raw).toList = normalizeChars raw.toList := String.toList_ofList
  have absolute : isAbsolute (normalize raw) = isRooted raw.toList := spelled.isAbsolute_ofList
  refine ⟨?_, ?_, normalize_eq_self_iff raw, fun blank => ?_, exists_iterate_fixed raw⟩
  · rw [chars]
    exact spelled.backslash_not_mem
  · rw [absolute, chars, spelled.writtenSegments_eq]
    exact spelled.normal
  · exact (normalize_normalize raw).resolve_left fun same =>
      blank ((normalize_eq_self_iff raw).mp same)

/-- A blank in front hides the `.` behind it until it is trimmed off. -/
example : (List.range 4).map (fun n => normalize^[n] "./ ./ a") =
    ["./ ./ a", " ./ a", " a", "a"] := by
  decide

end CommitSplit.Path
