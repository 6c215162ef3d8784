import CommitSplit.Path.Normal
import CommitSplit.Proofs.Text.Blank
import Mathlib.Data.List.Induction

/-!
# Normal segments and normal paths

A stack of segments stays normal under every push, and a normal list of segments is pushed without
change. So the normal form of a path is spelled by normal segments, and normalizing it again can
only trim it: either nothing happens or the text gets shorter.
-/

namespace CommitSplit.Path

/-- Segments as a normal path has them: none is empty or `.`, and `..` stands only in front of all
others, never below a root. -/
structure IsNormal (absolute : Bool) (segments : List Segment) : Prop where
  named : ∀ s ∈ segments, s ≠ [] ∧ s ≠ here
  leading : segments.Pairwise fun s t => t = above → s = above
  rooted : absolute = true → above ∉ segments

variable {absolute : Bool} {s : Segment} {segments stack : List Segment} {path : List Char}

theorem isNormal_nil (absolute : Bool) : IsNormal absolute [] :=
  ⟨by simp, .nil, by simp⟩

/-- Normality of a stack, whose first segment is the last one of the path. -/
theorem isNormal_reverse_cons :
    IsNormal absolute (s :: stack).reverse ↔
      (s ≠ [] ∧ s ≠ here) ∧ (s = above → absolute = false ∧ ∀ t ∈ stack, t = above) ∧
        IsNormal absolute stack.reverse := by
  rw [List.reverse_cons]
  constructor
  · rintro ⟨named, leading, rooted⟩
    obtain ⟨front, -, ordered⟩ := List.pairwise_append.mp leading
    refine ⟨named s (by simp), ?_, fun t ht => named t (by simp_all), front, ?_⟩
    · intro climbs
      refine ⟨?_, fun t ht => ordered t (by simpa using ht) s (by simp) climbs⟩
      by_contra root
      exact rooted (by simpa using root) (by simp [climbs])
    · exact fun root => fun there => rooted root (List.mem_append_left _ there)
  · rintro ⟨name, climbs, named, leading, rooted⟩
    refine ⟨?_, ?_, ?_⟩
    · intro t ht
      rcases List.mem_append.mp ht with front | last
      · exact named t front
      · rwa [List.mem_singleton.mp last]
    · refine List.pairwise_append.mpr ⟨leading, List.pairwise_singleton _ _, ?_⟩
      intro t ht last hlast climb
      rw [List.mem_singleton.mp hlast] at climb
      exact (climbs climb).2 t (by simpa using ht)
    · intro root there
      rcases List.mem_append.mp there with front | last
      · exact rooted root front
      · have plain := (climbs (List.mem_singleton.mp last).symm).1
        rw [root] at plain
        cases plain

/-! ## The stack -/

theorem pushSegment_nil (absolute : Bool) (stack : List Segment) :
    pushSegment absolute stack [] = stack := by
  simp [pushSegment]

theorem pushSegment_sublist (absolute : Bool) (stack : List Segment) (s : Segment) :
    (pushSegment absolute stack s).Sublist (s :: stack) := by
  have keep : stack.Sublist (s :: stack) := List.sublist_cons_self s stack
  unfold pushSegment
  split
  · exact keep
  · split
    · cases stack with
      | nil => cases absolute <;> simp
      | cons last rest =>
          by_cases climb : last = above
          · cases absolute <;> simp [climb]
          · simp [climb]
    · exact .refl _

theorem IsNormal.push (h : IsNormal absolute stack.reverse) (s : Segment) :
    IsNormal absolute (pushSegment absolute stack s).reverse := by
  unfold pushSegment
  split
  · exact h
  · rename_i name
    rw [not_or] at name
    split
    · rename_i climb
      subst climb
      cases stack with
      | nil =>
          cases absolute with
          | false => exact isNormal_reverse_cons.mpr ⟨name, by simp, h⟩
          | true => exact h
      | cons last rest =>
          obtain ⟨-, climbs, front⟩ := isNormal_reverse_cons.mp h
          by_cases climb : last = above
          · obtain ⟨relative, below⟩ := climbs climb
            subst relative climb
            simp only [ne_eq, not_true_eq_false, ↓reduceIte, Bool.false_eq_true]
            exact isNormal_reverse_cons.mpr ⟨name, by simpa using below, h⟩
          · simpa [climb] using front
    · rename_i plain
      exact isNormal_reverse_cons.mpr ⟨name, fun climb => absurd climb plain, h⟩

/-- What may stand on a stack is pushed onto it. -/
theorem pushSegment_eq_cons (h : IsNormal absolute (s :: stack).reverse) :
    pushSegment absolute stack s = s :: stack := by
  obtain ⟨name, climbs, -⟩ := isNormal_reverse_cons.mp h
  unfold pushSegment
  rw [if_neg (not_or.mpr name)]
  split
  · rename_i climb
    obtain ⟨relative, below⟩ := climbs climb
    cases stack with
    | nil => simp [relative]
    | cons last rest => simp [relative, below last List.mem_cons_self]
  · rfl

/-! ## Lists of segments -/

theorem normalSegments_cons_nil (absolute : Bool) (segments : List Segment) :
    normalSegments absolute ([] :: segments) = normalSegments absolute segments := by
  rw [normalSegments, List.foldl_cons, pushSegment_nil, ← normalSegments]

theorem normalSegments_append_singleton (absolute : Bool) (segments : List Segment) (s : Segment) :
    normalSegments absolute (segments ++ [s]) =
      (pushSegment absolute (normalSegments absolute segments).reverse s).reverse := by
  simp [normalSegments]

theorem isNormal_normalSegments (absolute : Bool) (segments : List Segment) :
    IsNormal absolute (normalSegments absolute segments) := by
  induction segments using List.reverseRecOn with
  | nil => exact isNormal_nil absolute
  | append_singleton segments s ih =>
      rw [normalSegments_append_singleton]
      exact IsNormal.push (by rwa [List.reverse_reverse]) s

theorem normalSegments_sublist (absolute : Bool) (segments : List Segment) :
    (normalSegments absolute segments).Sublist segments := by
  induction segments using List.reverseRecOn with
  | nil => exact .refl _
  | append_singleton segments s ih =>
      rw [normalSegments_append_singleton]
      have pushed :=
        (pushSegment_sublist absolute (normalSegments absolute segments).reverse s).reverse
      rw [List.reverse_cons, List.reverse_reverse] at pushed
      exact pushed.trans (ih.append_right [s])

theorem IsNormal.normalSegments_eq_self (h : IsNormal absolute segments) :
    normalSegments absolute segments = segments := by
  induction segments using List.reverseRecOn with
  | nil => rfl
  | append_singleton segments s ih =>
      have stacked : IsNormal absolute (s :: segments.reverse).reverse := by simpa using h
      have front : IsNormal absolute segments := by
        simpa using (isNormal_reverse_cons.mp stacked).2.2
      rw [normalSegments_append_singleton, ih front, pushSegment_eq_cons stacked]
      simp

/-! ## Spelling segments -/

/-- The text of segments, with a slash in front if they start at the root. -/
def spell (absolute : Bool) (segments : List Segment) : List Char :=
  if absolute then '/' :: joinSegments segments else joinSegments segments

theorem joinSegments_cons (s : Segment) {segments : List Segment} (more : segments ≠ []) :
    joinSegments (s :: segments) = s ++ '/' :: joinSegments segments := by
  obtain ⟨t, rest, rfl⟩ := List.exists_cons_of_ne_nil more
  simp [joinSegments, List.intercalate]

/-- Leaving segments out leaves characters out. -/
theorem joinSegments_sublist {few many : List Segment} (h : few.Sublist many) :
    (joinSegments few).Sublist (joinSegments many) := by
  induction h with
  | slnil => exact .refl _
  | @cons few many s h ih =>
      rcases eq_or_ne many [] with rfl | more
      · simp [joinSegments, List.sublist_nil.mp h]
      · rw [joinSegments_cons s more]
        exact (ih.trans (List.sublist_cons_self _ _)).trans (List.sublist_append_right _ _)
  | @cons_cons few many s h ih =>
      rcases eq_or_ne many [] with rfl | more
      · simp [List.sublist_nil.mp h]
      · rw [joinSegments_cons s more]
        rcases eq_or_ne few [] with rfl | some_segment
        · simp [joinSegments]
        · rw [joinSegments_cons s some_segment]
          exact (ih.cons_cons '/').append_left s

/-- Reading the segments of a spelled path brings back no more than was spelled. -/
theorem normalSegments_splitOn_spell (apart : ∀ s ∈ segments, '/' ∉ s) :
    normalSegments absolute (Text.splitOn '/' (spell absolute segments)) =
      normalSegments absolute segments := by
  have relative :
      normalSegments absolute (Text.splitOn '/' (joinSegments segments)) =
        normalSegments absolute segments := by
    rcases eq_or_ne segments [] with rfl | some_segment
    · exact normalSegments_cons_nil absolute []
    · rw [joinSegments, Text.splitOn_intercalate apart some_segment]
  cases absolute with
  | false => exact relative
  | true =>
      rw [spell, if_pos rfl, Text.splitOn_cons, if_pos rfl, normalSegments_cons_nil]
      exact relative

/-! ## Normal forms -/

/-- The trimmed path with slashes only, and whether it starts at the root. -/
def unified (raw : List Char) : List Char :=
  (Text.trimChars raw).map unifySlash

def isRooted (raw : List Char) : Bool :=
  (unified raw).head? == some '/'

/-- The segments of the normal form. -/
def segmentsOf (raw : List Char) : List Segment :=
  normalSegments (isRooted raw) (Text.splitOn '/' (unified raw))

theorem normalizeChars_eq (raw : List Char) :
    normalizeChars raw = spell (isRooted raw) (segmentsOf raw) := rfl

/-- The normal form leaves characters of the unified path out. -/
theorem normalizeChars_sublist (raw : List Char) : (normalizeChars raw).Sublist (unified raw) := by
  rw [normalizeChars_eq, segmentsOf, isRooted]
  generalize unified raw = cs
  cases absolute : cs.head? == some '/' with
  | false =>
      have left_out := joinSegments_sublist (normalSegments_sublist false (Text.splitOn '/' cs))
      rwa [joinSegments, joinSegments, Text.intercalate_splitOn] at left_out
  | true =>
      obtain ⟨rest, rfl⟩ : ∃ rest, cs = '/' :: rest := by
        cases cs with
        | nil => cases absolute
        | cons c rest => exact ⟨rest, by simpa using absolute⟩
      have left_out := joinSegments_sublist (normalSegments_sublist true (Text.splitOn '/' rest))
      rw [joinSegments, joinSegments, Text.intercalate_splitOn] at left_out
      rw [Text.splitOn_cons, if_pos rfl, normalSegments_cons_nil, spell, if_pos rfl]
      exact left_out.cons_cons '/'

theorem length_normalizeChars_le (raw : List Char) :
    (normalizeChars raw).length ≤ (Text.trimChars raw).length := by
  simpa [unified] using (normalizeChars_sublist raw).length_le

/-! ## Spelled paths -/

/-- A path that is spelled from normal segments without separators of either kind. -/
structure IsSpelled (absolute : Bool) (segments : List Segment) (path : List Char) : Prop where
  spell_eq : path = spell absolute segments
  normal : IsNormal absolute segments
  apart : ∀ s ∈ segments, '/' ∉ s ∧ '\\' ∉ s

namespace IsSpelled

theorem slash_not_mem (h : IsSpelled absolute segments path) : ∀ s ∈ segments, '/' ∉ s :=
  fun s there => (h.apart s there).1

theorem named (h : IsSpelled absolute segments path) : ∀ s ∈ segments, s ≠ [] :=
  fun s there => (h.normal.named s there).1

theorem backslash_not_mem (h : IsSpelled absolute segments path) : '\\' ∉ path := by
  have joined : '\\' ∉ joinSegments segments :=
    Text.notMem_intercalate (by decide) fun s there => (h.apart s there).2
  rw [h.spell_eq]
  cases absolute <;> simpa [spell] using joined

theorem head?_eq (h : IsSpelled absolute segments path) : (path.head? == some '/') = absolute := by
  rw [h.spell_eq]
  cases absolute with
  | true => rfl
  | false =>
      rw [spell, if_neg Bool.false_ne_true]
      cases segments with
      | nil => rfl
      | cons s rest =>
          obtain ⟨c, cs, rfl⟩ := List.exists_cons_of_ne_nil (h.named s List.mem_cons_self)
          have other : c ≠ '/' := by
            rintro rfl
            exact h.slash_not_mem _ List.mem_cons_self List.mem_cons_self
          have head : (joinSegments ((c :: cs) :: rest)).head? = some c := by
            rcases eq_or_ne rest [] with rfl | more
            · simp [joinSegments]
            · simp [joinSegments_cons _ more]
          simpa [head] using other

end IsSpelled

theorem unifySlash_ne (c : Char) : unifySlash c ≠ '\\' := by
  unfold unifySlash
  split
  · decide
  · assumption

theorem isSpelled_normalizeChars (raw : List Char) :
    IsSpelled (isRooted raw) (segmentsOf raw) (normalizeChars raw) := by
  refine ⟨rfl, isNormal_normalSegments _ _, fun s there => ?_⟩
  obtain ⟨apart, inside⟩ := Text.of_mem_splitOn ((normalSegments_sublist _ _).subset there)
  refine ⟨apart, fun backslash => ?_⟩
  obtain ⟨c, -, hc⟩ := List.mem_map.mp (inside _ backslash)
  exact unifySlash_ne c hc

/-! ## Reading paths -/

/-- Read without trimming, a path comes down to these segments. -/
structure ReadsAs (path : List Char) (absolute : Bool) (segments : List Segment) : Prop where
  rooted : ((path.map unifySlash).head? == some '/') = absolute
  segments_eq : normalSegments absolute (Text.splitOn '/' (path.map unifySlash)) = segments

theorem readsAs_of_trimmed (trimmed : Text.IsTrimmed path) :
    ReadsAs path (isRooted path) (segmentsOf path) := by
  have same : unified path = path.map unifySlash := by
    rw [unified, Text.trimChars_eq_self_iff.mpr trimmed]
  exact ⟨by rw [isRooted, same], by rw [segmentsOf, same]⟩

theorem ReadsAs.normalizeChars_eq (h : ReadsAs path absolute segments)
    (trimmed : Text.IsTrimmed path) : normalizeChars path = spell absolute segments := by
  obtain ⟨rooted, segments_eq⟩ := readsAs_of_trimmed trimmed
  rw [Path.normalizeChars_eq, ← segments_eq, ← rooted, h.rooted, h.segments_eq]

/-- A spelled path is read as it was spelled. -/
theorem IsSpelled.readsAs (h : IsSpelled absolute segments path) :
    ReadsAs path absolute segments := by
  have fixed : ∀ c ∈ path, unifySlash c = c :=
    fun c there => if_neg (ne_of_mem_of_not_mem there h.backslash_not_mem)
  have same : path.map unifySlash = path := by rw [List.map_congr_left fixed, List.map_id']
  refine ⟨by rw [same, h.head?_eq], ?_⟩
  rw [same, h.spell_eq, normalSegments_splitOn_spell h.slash_not_mem,
    h.normal.normalSegments_eq_self]

/-- A normal form without blanks at its ends is normal already. -/
theorem normalizeChars_of_trimmed {raw : List Char}
    (trimmed : Text.IsTrimmed (normalizeChars raw)) :
    normalizeChars (normalizeChars raw) = normalizeChars raw :=
  (isSpelled_normalizeChars raw).readsAs.normalizeChars_eq trimmed

theorem normalizeChars_toList {path : String} (fixed : normalize path = path) :
    normalizeChars path.toList = path.toList := by
  simpa [normalize] using congrArg String.toList fixed

theorem isSpelled_of_fixed {path : String} (fixed : normalize path = path) :
    IsSpelled (isRooted path.toList) (segmentsOf path.toList) path.toList := by
  have spelled := isSpelled_normalizeChars path.toList
  rwa [normalizeChars_toList fixed] at spelled

/-- What normalizing does not change has no blanks at its ends. -/
theorem isTrimmed_of_fixed {path : String} (fixed : normalize path = path) :
    Text.IsTrimmed path.toList := by
  rw [← Text.trimChars_eq_self_iff]
  by_contra trims
  have shorter := Text.length_trimChars_lt trims
  have kept := length_normalizeChars_le path.toList
  rw [normalizeChars_toList fixed] at kept
  omega

theorem normalize_empty : normalize "" = "" := by
  decide

/-- Blanks around a path do not count. -/
theorem normalize_trimChars (raw : List Char) :
    normalize (String.ofList (Text.trimChars raw)) = normalize (String.ofList raw) := by
  simp only [normalize, String.toList_ofList, normalizeChars, Text.trimChars_trimChars]

/-- Normalizing again changes nothing, or it trims the path. -/
theorem normalize_normalize (raw : String) :
    normalize (normalize raw) = normalize raw ∨
      (normalize (normalize raw)).length < (normalize raw).length := by
  by_cases trimmed : Text.IsTrimmed (normalizeChars raw.toList)
  · left
    simp [normalize, normalizeChars_of_trimmed trimmed]
  · right
    have shorter := Text.length_trimChars_lt (trimmed ∘ Text.trimChars_eq_self_iff.mp)
    have le := length_normalizeChars_le (normalizeChars raw.toList)
    simp only [normalize, String.toList_ofList, String.length_ofList]
    omega

/-- Paths of which each is the normal form of one of them are normal, since a path that normalizing
changes would have ever longer ones in front of it. -/
theorem normalize_eq_self_of_covered {paths : List String}
    (covered : ∀ p ∈ paths, ∃ q ∈ paths, normalize q = p) : ∀ p ∈ paths, normalize p = p := by
  have bounded : ∀ p ∈ paths, p.length ≤ (paths.map String.length).max?.getD 0 :=
    fun p hp => List.le_max?_getD_of_mem (List.mem_map_of_mem hp)
  generalize (paths.map String.length).max?.getD 0 = bound at bounded
  have from_longest : ∀ n, ∀ p ∈ paths, bound < p.length + n → normalize p = p := by
    intro n
    induction n with
    | zero =>
        intro p hp long
        have := bounded p hp
        omega
    | succ n ih =>
        intro p hp long
        obtain ⟨q, hq, rfl⟩ := covered p hp
        obtain ⟨r, -, rfl⟩ := covered q hq
        rcases normalize_normalize r with same | shorter
        · rw [same, same]
        · have same : normalize (normalize r) = normalize r := ih _ hq (by omega)
          rw [same, same]
  exact fun p hp => from_longest (bound + 1) p hp (by omega)

end CommitSplit.Path
