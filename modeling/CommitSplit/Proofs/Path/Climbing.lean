import CommitSplit.Proofs.Path.Joining
import Mathlib.Data.List.DropRight

/-!
# Climbing out of directories

There are two ways out of a directory: to take the directory of it, and to write `..` behind it.
The first takes the last segment off, whatever it is, and stays where no segment is left. The second
takes off only what is no `..` itself, and then goes further up. So both lead to the same place as
long as there are names to take off, and to different places from there on.
-/

namespace CommitSplit.Path

variable {absolute : Bool} {segments rest : List Segment} {path : List Char}
  {directory relative : String} {n : Nat}

/-! ## Segments -/

/-- Normal segments climb first and hold no `..` behind that. -/
theorem IsNormal.exists_eq_replicate_append (h : IsNormal absolute segments) :
    ∃ ups names, segments = List.replicate ups above ++ names ∧ above ∉ names := by
  obtain ⟨-, leading, -⟩ := h
  induction segments with
  | nil => exact ⟨0, [], rfl, List.not_mem_nil⟩
  | cons s segments ih =>
      obtain ⟨behind, leading⟩ := List.pairwise_cons.mp leading
      by_cases climb : s = above
      · obtain ⟨ups, names, rfl, plain⟩ := ih leading
        exact ⟨ups + 1, names, by rw [climb]; rfl, plain⟩
      · refine ⟨0, s :: segments, rfl, fun there => ?_⟩
        rcases List.mem_cons.mp there with same | there
        · exact climb same.symm
        · exact climb (behind above there rfl)

/-- As often as there are names to take off, and from the root as often as one likes, `..` takes off
the last segment. -/
theorem normalSegments_append_replicate_above (h : IsNormal absolute segments)
    (room : absolute = true ∨ n ≤ segments.length) (plain : above ∉ segments.rtake n) :
    normalSegments absolute (segments ++ (List.replicate n above ++ rest)) =
      normalSegments absolute (segments.rdrop n ++ rest) := by
  induction n generalizing segments with
  | zero => simp
  | succ n ih =>
      rw [List.replicate_succ, List.cons_append]
      rcases List.eq_nil_or_concat' segments with rfl | ⟨front, last, rfl⟩
      · have root : absolute = true := room.resolve_right (Nat.not_succ_le_zero n)
        rw [normalSegments_climb h (fun _ => root) (by simp), List.dropLast_nil,
          ih h (.inl root) (by simp), List.rdrop_nil, List.rdrop_nil]
      · rw [List.rtake_concat_succ, List.mem_append, List.mem_singleton, not_or] at plain
        have stays : (front ++ [last]).getLast? ≠ some above := by
          simpa using fun climb => plain.2 climb.symm
        rw [List.length_append, List.length_singleton] at room
        rw [normalSegments_climb h (by simp) stays, List.dropLast_concat,
          ih (h.sublist (List.sublist_append_left _ _)) (room.imp_right Nat.le_of_succ_le_succ)
            plain.1, List.rdrop_concat_succ]

/-- What holds no `..` takes nothing off. -/
theorem normalSegments_append_of_notMem (plain : above ∉ rest) :
    normalSegments absolute (segments ++ rest) =
      normalSegments absolute segments ++ rest.filter fun s => s ≠ [] ∧ s ≠ here := by
  induction rest using List.reverseRecOn with
  | nil => simp
  | append_singleton rest s ih =>
      obtain ⟨plain, other⟩ : above ∉ rest ∧ s ≠ above := by
        simpa [not_or, eq_comm] using plain
      rw [← List.append_assoc, normalSegments_append_singleton, ih plain, List.filter_append]
      by_cases nothing : s = [] ∨ s = here
      · unfold pushSegment
        rw [if_pos nothing]
        rcases nothing with rfl | rfl <;> simp
      · unfold pushSegment
        rw [if_neg nothing, if_neg other]
        simp [not_or.mp nothing]

/-! ## Directories -/

/-- A path that is written from some directories further up. -/
def upwards : Nat → String → String
  | 0, relative => relative
  | n + 1, relative => "../" ++ upwards n relative

/-- How often a normal path climbs above its start. -/
def ups (path : String) : Nat :=
  (writtenSegments path.toList).count above

/-- How many directories a normal path names. -/
def depth (path : String) : Nat :=
  (writtenSegments path.toList).countP (· ≠ above)

/-- A path begins with neither a blank nor a separator. -/
def StartsWithName (relative : String) : Prop :=
  ∀ c ∈ relative.toList.head?, Text.isBlank c = false ∧ c ≠ '/' ∧ c ≠ '\\'

theorem StartsWithName.upwards (h : StartsWithName relative) (n : Nat) :
    StartsWithName (upwards n relative) := by
  cases n with
  | zero => exact h
  | succ n =>
      have first : (Path.upwards (n + 1) relative).toList.head? = some '.' := by
        simp [Path.upwards]
      rw [StartsWithName, first]
      simp only [Option.mem_def, Option.some.injEq, forall_eq']
      decide

theorem splitOn_continuation_upwards (n : Nat) (relative : String) :
    Text.splitOn '/' (continuation (upwards n relative).toList) =
      List.replicate n above ++ Text.splitOn '/' (continuation relative.toList) := by
  induction n with
  | zero => rfl
  | succ n ih =>
      have text : (upwards (n + 1) relative).toList =
          above ++ '/' :: (upwards n relative).toList := by
        simp [upwards, above]
      rw [text, continuation_append_cons, Text.splitOn_append, ih]
      rfl

/-- To take the directory of a normal path again and again drops segments from its end. -/
theorem IsSpelled.repeat_parent (h : IsSpelled absolute segments directory.toList) (n : Nat) :
    IsSpelled absolute (segments.rdrop n) (Nat.repeat parent n directory).toList := by
  induction n with
  | zero => rwa [List.rdrop_zero]
  | succ n ih =>
      have dropped : segments.rdrop (n + 1) = (segments.rdrop n).dropLast := by
        rw [← List.rdrop_add, List.dropLast_eq_take]
        rfl
      rw [Nat.repeat, parent, String.toList_ofList, dropped]
      exact ih.directory

theorem visible_repeat_parent (visible : ∀ c ∈ directory.toList.head?, Text.isBlank c = false)
    (n : Nat) : ∀ c ∈ (Nat.repeat parent n directory).toList.head?, Text.isBlank c = false := by
  induction n with
  | zero => exact visible
  | succ n ih => exact visible_parent ih

section Ways

variable (h : IsSpelled absolute segments directory.toList)
  (visible : ∀ c ∈ directory.toList.head?, Text.isBlank c = false)
  (named : StartsWithName relative)

include h visible named

/-- The place that the directories of a directory lead to. -/
theorem IsSpelled.normalize_entryOf_repeat_parent (n : Nat) :
    IsSpelled absolute
      (normalSegments absolute
        (segments.rdrop n ++ Text.splitOn '/' (continuation relative.toList)))
      (normalize (entryOf (Nat.repeat parent n directory) relative)).toList :=
  (h.repeat_parent n).normalize_entryOf (visible_repeat_parent visible n)
    (fun c there => (named c there).1) fun c there => (named c there).2

/-- The place that `..` behind a directory leads to. -/
theorem IsSpelled.normalize_entryOf_upwards (n : Nat) :
    IsSpelled absolute
      (normalSegments absolute (segments ++
        (List.replicate n above ++ Text.splitOn '/' (continuation relative.toList))))
      (normalize (entryOf directory (upwards n relative))).toList := by
  have climbing := named.upwards n
  have spelled := h.normalize_entryOf visible (fun c there => (climbing c there).1)
    fun c there => (climbing c there).2
  rwa [splitOn_continuation_upwards] at spelled

end Ways

theorem IsSpelled.exists_ups_depth (h : IsSpelled absolute segments directory.toList) :
    ∃ names, segments = List.replicate (ups directory) above ++ names ∧ above ∉ names ∧
      names.length = depth directory := by
  rw [ups, depth, h.writtenSegments_eq]
  obtain ⟨climbs, names, rfl, plain⟩ := h.normal.exists_eq_replicate_append
  have others : ∀ s ∈ names, decide (s ≠ above) = true :=
    fun s there => decide_eq_true (ne_of_mem_of_not_mem there plain)
  refine ⟨names, ?_, plain, ?_⟩
  · rw [List.count_append, List.count_replicate_self, List.count_eq_zero_of_not_mem plain,
      Nat.add_zero]
  · rw [List.countP_append, List.countP_replicate, List.countP_eq_length.mpr others]
    simp

/-! ## The two ways compared -/

theorem isNormal_replicate_above (n : Nat) : IsNormal false (List.replicate n above) where
  named s there := by
    rw [List.eq_of_mem_replicate there]
    decide
  leading := List.pairwise_replicate.mpr (.inr fun climb => climb)
  rooted := nofun

/-- From the start of all paths `..` is kept. -/
theorem isSpelled_normalize_upwards (named : StartsWithName relative) (n : Nat) :
    IsSpelled false
      (normalSegments false
        (List.replicate n above ++ Text.splitOn '/' (continuation relative.toList)))
      (normalize (upwards n relative)).toList := by
  have start : IsSpelled false [] "".toList := ⟨rfl, isNormal_nil false, nofun⟩
  exact start.normalize_entryOf_upwards nofun named n

theorem above_notMem_pieces (undotted : '.' ∉ relative.toList) :
    above ∉ Text.splitOn '/' (continuation relative.toList) := by
  intro there
  have dot : '.' ∈ continuation relative.toList :=
    (Text.of_mem_splitOn there).2 '.' List.mem_cons_self
  obtain ⟨c, inside, same⟩ := List.mem_map.mp dot
  have plain : c = '.' := by
    unfold unifySlash at same
    split at same
    · exact absurd same (by decide)
    · exact same
  exact undotted (plain ▸ (Text.dropEndWhile_sublist _ _).subset inside)

/-- So a path of names that is written from further up climbs as often as that. -/
theorem ups_normalize_upwards (named : StartsWithName relative)
    (undotted : '.' ∉ relative.toList) (n : Nat) : ups (normalize (upwards n relative)) = n := by
  have plain := above_notMem_pieces undotted
  have kept : above ∉ (Text.splitOn '/' (continuation relative.toList)).filter
      fun s => s ≠ [] ∧ s ≠ here := fun there => plain (List.mem_of_mem_filter there)
  rw [ups, (isSpelled_normalize_upwards named n).writtenSegments_eq,
    normalSegments_append_of_notMem plain, (isNormal_replicate_above n).normalSegments_eq_self,
    List.count_append, List.count_replicate_self, List.count_eq_zero_of_not_mem kept, Nat.add_zero]

/-- As long as there are names to take off both ways lead to the same place. -/
theorem IsSpelled.climb_of_room (h : IsSpelled absolute segments directory.toList)
    (visible : ∀ c ∈ directory.toList.head?, Text.isBlank c = false)
    (named : StartsWithName relative) (room : absolute = true ∨ n ≤ depth directory) :
    normalize (entryOf (Nat.repeat parent n directory) relative) =
      normalize (entryOf directory (upwards n relative)) := by
  obtain ⟨names, split, plain, many⟩ := h.exists_ups_depth
  rw [← many] at room
  have long : absolute = true ∨ n ≤ segments.length := by
    refine room.imp_right fun few => ?_
    rw [split, List.length_append]
    omega
  have taken : above ∉ segments.rtake n := by
    intro there
    rcases room with root | few
    · exact h.normal.rooted root (List.mem_of_mem_drop there)
    · have behind : segments.rtake n = names.drop (names.length - n) := by
        rw [split, List.rtake, List.length_append, List.drop_append,
          List.drop_eq_nil_of_le (by rw [List.length_replicate]; omega), List.nil_append]
        congr 1
        omega
      rw [behind] at there
      exact plain (List.mem_of_mem_drop there)
  rw [← String.toList_inj, (h.normalize_entryOf_repeat_parent visible named n).spell_eq,
    (h.normalize_entryOf_upwards visible named n).spell_eq,
    normalSegments_append_replicate_above h.normal long taken]

/-- Where no name is left, every further directory takes back a `..` in front of the path, and every
further `..` adds one. -/
theorem IsSpelled.climb_of_depth_le (h : IsSpelled false segments directory.toList)
    (visible : ∀ c ∈ directory.toList.head?, Text.isBlank c = false)
    (named : StartsWithName relative) (deep : depth directory ≤ n) :
    normalize (entryOf (Nat.repeat parent n directory) relative) =
        normalize (upwards (ups directory - (n - depth directory)) relative) ∧
      normalize (entryOf directory (upwards n relative)) =
        normalize (upwards (ups directory + (n - depth directory)) relative) := by
  obtain ⟨names, split, plain, many⟩ := h.exists_ups_depth
  obtain ⟨more, rfl⟩ := Nat.exists_eq_add_of_le deep
  rw [Nat.add_sub_cancel_left]
  have bare : segments.rdrop (depth directory) = List.replicate (ups directory) above := by
    rw [split, ← many, List.rdrop_append_length]
  constructor
  · have left : segments.rdrop (depth directory + more) =
        List.replicate (ups directory - more) above := by
      rw [← List.rdrop_add, bare, List.rdrop, List.take_replicate, List.length_replicate]
      congr 1
      omega
    rw [← String.toList_inj, (h.normalize_entryOf_repeat_parent visible named _).spell_eq,
      (isSpelled_normalize_upwards named _).spell_eq, left]
  · have long : false = true ∨ depth directory ≤ segments.length := by
      rw [split, List.length_append]
      omega
    have taken : above ∉ segments.rtake (depth directory) := by
      have behind : segments.rtake (depth directory) = names := by
        rw [split, List.rtake, ← many, List.length_append, Nat.add_sub_cancel, List.drop_left]
      rwa [behind]
    rw [← String.toList_inj, (h.normalize_entryOf_upwards visible named _).spell_eq,
      (isSpelled_normalize_upwards named _).spell_eq, List.replicate_add, List.replicate_add,
      List.append_assoc, List.append_assoc,
      normalSegments_append_replicate_above h.normal long taken, bare]

/-- So both ways lead to the same place exactly as long as there is room. -/
theorem IsSpelled.climb_iff (h : IsSpelled absolute segments directory.toList)
    (visible : ∀ c ∈ directory.toList.head?, Text.isBlank c = false)
    (named : StartsWithName relative) (undotted : '.' ∉ relative.toList) :
    normalize (entryOf (Nat.repeat parent n directory) relative) =
        normalize (entryOf directory (upwards n relative)) ↔
      absolute = true ∨ n ≤ depth directory := by
  refine ⟨fun same => ?_, h.climb_of_room visible named⟩
  cases absolute with
  | true => exact .inl rfl
  | false =>
      refine .inr (Nat.le_of_not_lt fun deep => ?_)
      obtain ⟨tried, written⟩ := h.climb_of_depth_le visible named deep.le
      have counts := congrArg ups (tried.symm.trans (same.trans written))
      rw [ups_normalize_upwards named undotted, ups_normalize_upwards named undotted] at counts
      omega

end CommitSplit.Path
