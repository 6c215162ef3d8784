import CommitSplit.Proofs.Path.Shape
import Mathlib.Data.List.Basic
import Mathlib.Data.List.Infix

/-!
# Joining paths

A path in front of a slash counts through its segments alone: what stands behind the slash is pushed
onto them. So a path may be normalized before it is continued. The directory of a normal path has
all of its segments but the last, and `..` takes the last one off, so to resolve a path from a file
is to climb out of the file and go on.
-/

namespace CommitSplit.Path

variable {absolute : Bool} {segments front : List Segment} {path rest : List Char}

/-! ## Continued paths -/

/-- What a text adds to a path behind a slash. -/
def continuation (rest : List Char) : List Char :=
  (Text.dropEndWhile Text.isBlank rest).map unifySlash

theorem continuation_append_cons (path rest : List Char) :
    continuation (path ++ '/' :: rest) = path.map unifySlash ++ '/' :: continuation rest := by
  rw [continuation, Text.dropEndWhile_append_cons rfl, List.map_append, List.map_cons]
  rfl

theorem continuation_of_visible (visible : ∀ c ∈ rest.head?, Text.isBlank c = false) :
    continuation rest = unified rest := by
  rw [continuation, unified, Text.trimChars, Text.dropWhile_eq_self_iff.mpr visible]

/-- Segments that were normalized before are pushed as before. -/
theorem normalSegments_append (absolute : Bool) (front rest : List Segment) :
    normalSegments absolute (normalSegments absolute front ++ rest) =
      normalSegments absolute (front ++ rest) := by
  have settled := (isNormal_normalSegments absolute front).normalSegments_eq_self
  have stack : (normalSegments absolute front).foldl (pushSegment absolute) [] =
      front.foldl (pushSegment absolute) [] :=
    List.reverse_inj.mp settled
  rw [normalSegments, List.foldl_append, stack, ← List.foldl_append, ← normalSegments]

/-- A path that begins with a visible character is continued on its segments. -/
theorem ReadsAs.normalizeChars_append (h : ReadsAs path absolute segments) (some_path : path ≠ [])
    (visible : ∀ c ∈ path.head?, Text.isBlank c = false) (rest : List Char) :
    normalizeChars (path ++ '/' :: rest) =
      spell absolute
        (normalSegments absolute (segments ++ Text.splitOn '/' (continuation rest))) := by
  obtain ⟨c, cs, rfl⟩ := List.exists_cons_of_ne_nil some_path
  have kept : (c :: cs ++ '/' :: rest).dropWhile Text.isBlank = c :: cs ++ '/' :: rest :=
    Text.dropWhile_eq_self_iff.mpr visible
  have joined : unified (c :: cs ++ '/' :: rest) =
      (c :: cs).map unifySlash ++ '/' :: continuation rest := by
    rw [unified, Text.trimChars, kept]
    exact continuation_append_cons (c :: cs) rest
  have rooted : isRooted (c :: cs ++ '/' :: rest) = absolute := by
    rw [isRooted, joined, ← h.rooted]
    rfl
  rw [Path.normalizeChars_eq, segmentsOf, rooted, joined, Text.splitOn_append, ← h.segments_eq,
    normalSegments_append]

/-- Normalizing the front of a path does not change where it leads. -/
theorem normalize_join {s : String} (trimmed : Text.IsTrimmed s.toList)
    (some_path : normalize s ≠ "") (trimmed' : Text.IsTrimmed (normalize s).toList) (t : String) :
    normalize (s ++ "/" ++ t) = normalize (normalize s ++ "/" ++ t) := by
  have some_normal : normalizeChars s.toList ≠ [] := by simpa [normalize] using some_path
  have some_char : s.toList ≠ [] := by
    intro none
    rw [none] at some_normal
    exact some_normal rfl
  rw [normalize, String.toList_ofList] at trimmed'
  have raw := (readsAs_of_trimmed trimmed).normalizeChars_append some_char trimmed.first t.toList
  have normal := (isSpelled_normalizeChars s.toList).readsAs.normalizeChars_append some_normal
    trimmed'.first t.toList
  simpa [normalize] using congrArg String.ofList (raw.trans normal.symm)

/-! ## Directories -/

/-- The path of an entry of a directory; the empty directory is the one that paths start from. -/
def entryOf (directory name : String) : String :=
  if directory = "" then name else directory ++ "/" ++ name

theorem resolve_eq (file relative : String) :
    resolve file relative = normalize (entryOf (parent file) relative) := by
  rw [resolve, entryOf]
  split <;> rfl

theorem joinSegments_append_singleton (some_segment : front ≠ []) (last : Segment) :
    joinSegments (front ++ [last]) = joinSegments front ++ '/' :: last := by
  induction front with
  | nil => exact absurd rfl some_segment
  | cons s rest ih =>
      rcases eq_or_ne rest [] with rfl | more
      · simp [joinSegments, List.intercalate]
      · rw [List.cons_append, joinSegments_cons s (by simp), ih more, joinSegments_cons s more]
        simp

theorem parentChars_of_notMem {name : List Char} (apart : '/' ∉ name) : parentChars name = [] := by
  have all_dropped : name.reverse.dropWhile (· ≠ '/') = [] := by
    simpa using fun c there => ne_of_mem_of_not_mem there apart
  rw [parentChars, all_dropped]

/-- The directory in front of the last slash; the root keeps its slash. -/
theorem parentChars_append_cons {name : List Char} (apart : '/' ∉ name) (path : List Char) :
    parentChars (path ++ '/' :: name) = if path = [] then ['/'] else path := by
  have reversed : (path ++ '/' :: name).reverse = name.reverse ++ '/' :: path.reverse := by simp
  have all_dropped : ∀ c ∈ name.reverse, decide (c ≠ '/') = true := by
    simpa using fun c there => ne_of_mem_of_not_mem there apart
  have dropped : (name.reverse ++ '/' :: path.reverse).dropWhile (· ≠ '/') =
      '/' :: path.reverse := by
    rw [List.dropWhile_append_of_pos all_dropped]
    simp
  rw [parentChars, reversed, dropped]
  rcases List.eq_nil_or_concat' path with rfl | ⟨path, c, rfl⟩
  · rfl
  · simp

/-- The directory of a spelled path is spelled from all of its segments but the last. -/
theorem IsSpelled.parentChars_eq (h : IsSpelled absolute segments path) :
    parentChars path = spell absolute segments.dropLast := by
  have apart := h.slash_not_mem
  have named := h.named
  rw [h.spell_eq]
  rcases List.eq_nil_or_concat' segments with rfl | ⟨front, last, rfl⟩
  · cases absolute <;> rfl
  · have apart_last : '/' ∉ last := apart last (by simp)
    rw [List.dropLast_concat]
    rcases eq_or_ne front [] with rfl | more
    · cases absolute with
      | true => simpa [spell, joinSegments] using parentChars_append_cons apart_last []
      | false => simpa [spell, joinSegments] using parentChars_of_notMem apart_last
    · have some_char : joinSegments front ≠ [] :=
        (joinSegments_eq_nil_iff fun s there => named s (by simp [there])).not.mpr more
      cases absolute with
      | true =>
          simp only [spell, if_true, joinSegments_append_singleton more, ← List.cons_append]
          exact (parentChars_append_cons apart_last _).trans (if_neg (List.cons_ne_nil _ _))
      | false =>
          simp only [spell, Bool.false_eq_true, if_false, joinSegments_append_singleton more]
          exact (parentChars_append_cons apart_last _).trans (if_neg some_char)

theorem IsNormal.sublist (h : IsNormal absolute segments) (few : front.Sublist segments) :
    IsNormal absolute front where
  named s there := h.named s (few.subset there)
  leading := h.leading.sublist few
  rooted root there := h.rooted root (few.subset there)

theorem IsSpelled.directory (h : IsSpelled absolute segments path) :
    IsSpelled absolute segments.dropLast (parentChars path) where
  spell_eq := h.parentChars_eq
  normal := h.normal.sublist (List.dropLast_sublist segments)
  apart := fun s there => h.apart s (List.mem_of_mem_dropLast there)

theorem parentChars_prefix (path : List Char) : parentChars path <+: path := by
  have front : (path.reverse.dropWhile (· ≠ '/')).reverse <+: path := by
    simpa using List.reverse_prefix.mpr (List.dropWhile_suffix (l := path.reverse) (· ≠ '/'))
  unfold parentChars
  split
  · exact List.nil_prefix
  · rename_i slash only
    rwa [only] at front
  · rename_i slash rest _ more
    rw [more, List.reverse_cons] at front
    exact (List.prefix_append _ _).trans front

/-- A directory begins as the path does. -/
theorem visible_parent {file : String} (visible : ∀ c ∈ file.toList.head?, Text.isBlank c = false) :
    ∀ c ∈ (parent file).toList.head?, Text.isBlank c = false := by
  intro c first
  rw [parent, String.toList_ofList] at first
  obtain ⟨rest, whole⟩ := parentChars_prefix file.toList
  refine visible c ?_
  rw [← whole, List.head?_append, first, Option.some_or]
  rfl

theorem pushSegment_above {s : Segment} (plain : s ≠ above) (stack : List Segment) :
    pushSegment absolute (s :: stack) above = stack := by
  unfold pushSegment
  rw [if_neg (by decide), if_pos rfl]
  exact if_pos plain

/-- `..` takes off the segment in front of it, and above the root there is only the root. -/
theorem normalSegments_climb (h : IsNormal absolute segments)
    (nothing : segments = [] → absolute = true) (stays : segments.getLast? ≠ some above)
    (rest : List Segment) :
    normalSegments absolute (segments ++ above :: rest) =
      normalSegments absolute (segments.dropLast ++ rest) := by
  rcases List.eq_nil_or_concat' segments with rfl | ⟨front, last, rfl⟩
  · cases nothing rfl
    rfl
  · have plain : last ≠ above := by simpa using stays
    have name := h.named last (by simp)
    have climbs (stack : List Segment) :
        pushSegment absolute (pushSegment absolute stack last) above = stack := by
      have pushed : pushSegment absolute stack last = last :: stack := by
        simp [pushSegment, name, plain]
      rw [pushed, pushSegment_above plain]
    rw [List.dropLast_concat, normalSegments, normalSegments]
    simp [climbs]

/-! ## Resolving -/

/-- A path that begins with neither a blank nor a separator starts at no root. -/
theorem isRooted_eq_false (visible : ∀ c ∈ path.head?, Text.isBlank c = false)
    (relative : ∀ c ∈ path.head?, c ≠ '/' ∧ c ≠ '\\') : isRooted path = false := by
  rw [isRooted, ← continuation_of_visible visible]
  cases path with
  | nil => rfl
  | cons c cs =>
      obtain ⟨slash, backslash⟩ := relative c rfl
      have same : unifySlash c = c := if_neg backslash
      have first : (continuation (c :: cs)).head? = some c := by
        have kept := Text.dropEndWhile_append_cons (visible c rfl) [] cs
        rw [List.nil_append] at kept
        rw [continuation, kept]
        simp [same]
      simpa [first] using slash

/-- To climb out of a file and go on is to push the rest onto the segments of its directory. -/
theorem IsSpelled.normalizeChars_climb (h : IsSpelled absolute segments path)
    (some_path : path ≠ []) (trimmed : Text.IsTrimmed path)
    (stays : segments.getLast? ≠ some above) (rest : List Char) :
    normalizeChars (path ++ '/' :: (above ++ '/' :: rest)) =
      spell absolute (normalSegments absolute
        (segments.dropLast ++ Text.splitOn '/' (continuation rest))) := by
  have nothing : segments = [] → absolute = true := by
    rintro rfl
    by_contra relative
    rw [Bool.not_eq_true] at relative
    exact some_path (by rw [h.spell_eq, relative]; rfl)
  rw [h.readsAs.normalizeChars_append some_path trimmed.first, continuation_append_cons,
    Text.splitOn_append]
  exact congrArg _ (normalSegments_climb h.normal nothing stays _)

/-- Normal segments of a directory and what is written behind them spell a path. -/
theorem IsSpelled.isSpelled_append (h : IsSpelled absolute segments path) (rest : List Char) :
    IsSpelled absolute
      (normalSegments absolute (segments ++ Text.splitOn '/' (continuation rest)))
      (spell absolute
        (normalSegments absolute (segments ++ Text.splitOn '/' (continuation rest)))) := by
  refine ⟨rfl, isNormal_normalSegments _ _, fun s there => ?_⟩
  rcases List.mem_append.mp ((normalSegments_sublist _ _).subset there) with front | behind
  · exact h.apart s front
  · obtain ⟨apart, inside⟩ := Text.of_mem_splitOn behind
    refine ⟨apart, fun backslash => ?_⟩
    obtain ⟨c, -, hc⟩ := List.mem_map.mp (inside _ backslash)
    exact unifySlash_ne c hc

/-- A path that begins with neither a blank nor a separator is pushed onto the segments of its
directory, also when the directory is the one that paths start from. -/
theorem IsSpelled.normalize_entryOf {directory relative : String}
    (h : IsSpelled absolute segments directory.toList)
    (visible : ∀ c ∈ directory.toList.head?, Text.isBlank c = false)
    (visible' : ∀ c ∈ relative.toList.head?, Text.isBlank c = false)
    (open_start : ∀ c ∈ relative.toList.head?, c ≠ '/' ∧ c ≠ '\\') :
    IsSpelled absolute
      (normalSegments absolute (segments ++ Text.splitOn '/' (continuation relative.toList)))
      (normalize (entryOf directory relative)).toList := by
  have text : (normalize (entryOf directory relative)).toList =
      spell absolute
        (normalSegments absolute
          (segments ++ Text.splitOn '/' (continuation relative.toList))) := by
    rw [entryOf, normalize, String.toList_ofList]
    by_cases top : directory = ""
    · -- Without a directory the path is relative and has no other segments.
      subst top
      have none_left := h.spell_eq
      rw [if_pos rfl, continuation_of_visible visible']
      cases absolute with
      | true => cases none_left
      | false =>
          rw [(joinSegments_eq_nil_iff h.named).mp none_left.symm, normalizeChars_eq, segmentsOf,
            isRooted_eq_false visible' open_start]
          rfl
    · rw [if_neg top, ← h.readsAs.normalizeChars_append (by simpa using top) visible]
      simp
  rw [text]
  exact h.isSpelled_append relative.toList

/-- To resolve a path from a file pushes it onto the segments of the directory as well. -/
theorem IsSpelled.toList_resolve {file relative : String}
    (h : IsSpelled absolute segments file.toList) (trimmed : Text.IsTrimmed file.toList)
    (visible : ∀ c ∈ relative.toList.head?, Text.isBlank c = false)
    (open_start : ∀ c ∈ relative.toList.head?, c ≠ '/' ∧ c ≠ '\\') :
    (resolve file relative).toList =
      spell absolute (normalSegments absolute
        (segments.dropLast ++ Text.splitOn '/' (continuation relative.toList))) := by
  have directory : IsSpelled absolute segments.dropLast (parent file).toList := by
    rw [parent, String.toList_ofList]
    exact h.directory
  rw [resolve_eq]
  exact (directory.normalize_entryOf (visible_parent trimmed.first) visible open_start).spell_eq

/-- From a file that does not end above its start, to resolve a path is to climb out of the file
and go on. -/
theorem resolve_eq_normalize {file relative : String} (some_file : file ≠ "")
    (fixed : normalize file = file) (stays : (writtenSegments file.toList).getLast? ≠ some above)
    (visible : ∀ c ∈ relative.toList.head?, Text.isBlank c = false)
    (open_start : ∀ c ∈ relative.toList.head?, c ≠ '/' ∧ c ≠ '\\') :
    resolve file relative = normalize (file ++ "/../" ++ relative) := by
  have spelled := isSpelled_of_fixed fixed
  have trimmed := isTrimmed_of_fixed fixed
  rw [spelled.writtenSegments_eq] at stays
  have joined : (file ++ "/../" ++ relative).toList =
      file.toList ++ '/' :: (above ++ '/' :: relative.toList) := by
    simp [above]
  rw [← String.toList_inj, spelled.toList_resolve trimmed visible open_start, normalize,
    String.toList_ofList, joined,
    spelled.normalizeChars_climb (by simpa using some_file) trimmed stays]

/-- A path may be normalized before it is continued, and a path is resolved from a file as it is
normalized behind the file and a `..`. -/
theorem joining_normalizes :
    (∀ s t : String, Text.IsTrimmed s.toList → normalize s ≠ "" →
        Text.IsTrimmed (normalize s).toList →
        normalize (s ++ "/" ++ t) = normalize (normalize s ++ "/" ++ t)) ∧
      ∀ file relative : String, file ≠ "" → normalize file = file →
        (writtenSegments file.toList).getLast? ≠ some above → Text.IsTrimmed relative.toList →
        (∀ c ∈ relative.toList.head?, c ≠ '/' ∧ c ≠ '\\') →
        resolve file relative = normalize (file ++ "/../" ++ relative) :=
  ⟨fun _ t trimmed some_path trimmed' => normalize_join trimmed some_path trimmed' t,
    fun _ _ some_file fixed stays trimmed open_start =>
      resolve_eq_normalize some_file fixed stays trimmed.first open_start⟩

/-- Both climb above their start, over segments with blanks at their ends. -/
theorem joining_normalizes_above_start :
    let s := "..\\src//./ lib"
    let t := " x/../../../../b.ts\t"
    let file := "src/ lib /a.ts"
    let relative := "../.\\../../b"
    (normalize s = "../src/ lib" ∧ normalize file = file) ∧
      normalize (s ++ "/" ++ t) = normalize ("../src/ lib" ++ "/" ++ t) ∧
      resolve file relative = normalize (file ++ "/../" ++ relative) ∧
      normalize (s ++ "/" ++ t) = "../../b.ts" ∧ resolve file relative = "../b" := by
  intro s t file relative
  have normal : normalize s = "../src/ lib" := by decide
  have fixed : normalize file = file := by decide
  have trimmed {path : String} (h : path ∈ [s, normalize s, relative]) :
      Text.IsTrimmed path.toList := by
    rw [normal] at h
    simp only [List.mem_cons, List.not_mem_nil, or_false] at h
    rcases h with rfl | rfl | rfl <;> exact Text.trimChars_eq_self_iff.mp (by decide)
  have joined := joining_normalizes.1 s t (trimmed (by simp)) (by rw [normal]; decide)
    (trimmed (by simp))
  have first : relative.toList.head? = some '.' := by decide
  have resolved := joining_normalizes.2 file relative (by decide) fixed (by decide)
    (trimmed (by simp)) (by rw [first]; simp)
  rw [normal] at joined
  exact ⟨⟨normal, fixed⟩, joined, resolved, by decide, by decide +kernel⟩

end CommitSplit.Path
