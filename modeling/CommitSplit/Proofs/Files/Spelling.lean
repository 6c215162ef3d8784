import CommitSplit.Proofs.Files.Walk
import CommitSplit.Proofs.Text.Lines

/-!
# Spellings of a path below a root

A plain spelling differs from the normal form in its segments only. It leads somewhere below a root
exactly if its normal form does and every directory that it names on its way is there. A spelling
with backslashes or with blanks around it is something else to a file system: it asks for names that
hold them.
-/

namespace CommitSplit

/-- A text without backslashes and without blanks around it. -/
structure Path.IsPlain (cs : List Char) : Prop where
  trimmed : Text.IsTrimmed cs
  no_backslash : '\\' ∉ cs

/-- Whether a text is plain is seen at its ends and by a search for a backslash. -/
theorem Path.isPlain_iff {cs : List Char} :
    ((cs.head?.all fun c => !Text.isBlank c) = true ∧
        (cs.getLast?.all fun c => !Text.isBlank c) = true) ∧ '\\' ∉ cs ↔ Path.IsPlain cs := by
  simp only [Option.all_eq_true, Bool.not_eq_true']
  exact ⟨fun h => ⟨⟨h.1.1, h.1.2⟩, h.2⟩,
    fun h => ⟨⟨h.trimmed.first, h.trimmed.last⟩, h.no_backslash⟩⟩

instance : DecidablePred Path.IsPlain :=
  fun _ => decidable_of_iff _ Path.isPlain_iff

namespace Text

theorem utf8ByteSize_le_of_sublist {cs cs' : List Char} (h : cs.Sublist cs') :
    (String.ofList cs).utf8ByteSize ≤ (String.ofList cs').utf8ByteSize := by
  induction h with
  | slnil => exact Nat.le_refl _
  | cons c _ ih =>
      rw [String.ofList_cons, String.utf8ByteSize_append]
      omega
  | cons_cons c _ ih =>
      rw [String.ofList_cons, String.ofList_cons, String.utf8ByteSize_append,
        String.utf8ByteSize_append]
      omega

/-- A text has no slash, or a last one. -/
theorem exists_last_slash (cs : List Char) :
    '/' ∉ cs ∨ ∃ front last, cs = front ++ '/' :: last ∧ '/' ∉ last := by
  by_cases there : '/' ∈ cs
  · obtain ⟨last, front, reversed, apart⟩ := List.eq_append_cons_of_mem (List.mem_reverse.mpr there)
    refine .inr ⟨front.reverse, last.reverse, ?_, by simpa using apart⟩
    rw [← List.reverse_reverse cs, reversed]
    simp
  · exact .inl there

end Text

namespace FileTree

open Path (IsPlain Segment isAbsolute isRooted join normalize normalSegments)

variable {tree : FileTree} {place next : Place} {path other root : String} {absolute : Bool}
  {front behind : List Char} {segments : List Segment} {name : String} {names : List String}

/-! ## Walking below a root -/

/-- A root without the slash that it may end in. -/
def stem (root : String) : List Char :=
  if root.toList.getLast? = some '/' then root.toList.dropLast else root.toList

theorem join_of_isAbsolute (rooted : isAbsolute path = true) : join root path = path := by
  rw [join, rooted]
  rfl

theorem toList_join (some_root : root ≠ "") (relative : isAbsolute path = false) :
    (join root path).toList = stem root ++ '/' :: path.toList := by
  rw [join, relative, stem]
  simp only [some_root, Bool.false_or, decide_false, Bool.false_eq_true, if_false]
  split
  · rename_i slash
    obtain ⟨front, spelled⟩ := List.getLast?_eq_some_iff.mp slash
    simp [spelled]
  · simp

theorem start_join (some_root : root ≠ "") (relative : isAbsolute path = false) :
    start (join root path) = start root := by
  have same : isAbsolute (join root path) = isAbsolute root := by
    rw [isAbsolute, isAbsolute, toList_join some_root relative, stem]
    split
    · rename_i slash
      obtain ⟨front, spelled⟩ := List.getLast?_eq_some_iff.mp slash
      rw [spelled, List.dropLast_concat]
      cases front <;> simp
    · have some_char : root.toList ≠ [] := by simpa using some_root
      rw [List.head?_append_of_ne_nil _ some_char]
  rw [start, start, same]

/-- Where a walk stands in front of a path below a root. -/
def entrance (tree : FileTree) (root : String) (absolute : Bool) : Except ReadFault Place :=
  if absolute then .ok .top
  else (namesOf (Text.splitOn '/' (stem root))).foldlM tree.walkSegment (start root)

/-- A path below a root is walked from where the walk of the root ends. -/
theorem walk_join_eq_ok_iff (some_root : root ≠ "") :
    tree.walk (join root path) = .ok place ↔ IsWalkable (join root path) ∧
      ∃ door, tree.entrance root (isAbsolute path) = .ok door ∧
        (namesOf (Text.splitOn '/' path.toList)).foldlM tree.walkSegment door = .ok place := by
  rw [walk_eq_ok_iff, ← Attempt.bind_eq_ok_iff]
  refine and_congr_right fun _ => ?_
  cases absolute : isAbsolute path with
  | true =>
      rw [join_of_isAbsolute absolute, start, absolute]
      rfl
  | false =>
      rw [start_join some_root absolute, FileTree.segments, toList_join some_root absolute,
        Text.splitOn_append, List.map_append, List.foldlM_append]
      rfl

theorem isThere_below_iff_walk :
    (tree.files.below root path).isThere = true ↔ ∃ place, tree.walk (join root path) = .ok place :=
  isThere_files_iff

theorem below_of_walk (walked : tree.walk (join root path) = .ok place) :
    tree.files.below root path = tree.statusAt place :=
  files_of_walk walked

/-- Of a path that may be walked below a root, one with fewer characters may be as well. -/
theorem IsWalkable.join_mono (some_root : root ≠ "") (same : isAbsolute path = isAbsolute other)
    (few : path.toList.Sublist other.toList) (h : IsWalkable (join root other)) :
    IsWalkable (join root path) := by
  have chars : (join root path).toList.Sublist (join root other).toList ∧
      (join root path).toList ≠ [] := by
    cases absolute : isAbsolute path with
    | true =>
        rw [join_of_isAbsolute absolute, join_of_isAbsolute (same ▸ absolute)]
        refine ⟨few, fun nothing => ?_⟩
        rw [isAbsolute, nothing] at absolute
        cases absolute
    | false =>
        rw [toList_join some_root absolute, toList_join some_root (same ▸ absolute)]
        exact ⟨(few.cons_cons '/').append_left _, by simp⟩
  refine ⟨by simpa using chars.2, fun nul => h.no_nul (chars.1.subset nul), ?_⟩
  have size := Text.utf8ByteSize_le_of_sublist chars.1
  rw [String.ofList_toList, String.ofList_toList] at size
  exact size.trans_lt h.short

theorem entrance_rooted {door : Place} (entered : tree.entrance root absolute = .ok door) :
    absolute = true → door = .top := by
  rintro rfl
  exact (Except.ok.inj entered).symm

theorem isThere_entrance {door : Place} (entered : tree.entrance root absolute = .ok door) :
    (tree.statusAt door).isThere = true := by
  cases absolute with
  | true => exact Except.ok.inj entered ▸ rfl
  | false => exact isThere_of_walk (isThere_start root) entered

/-! ## Normal forms -/

theorem isFile_of_walk {names : List String} (some_name : names ≠ [])
    (walked : names.foldlM tree.walkSegment place = .ok next) :
    (tree.statusAt place).isFile = false := by
  obtain ⟨name, names, rfl⟩ := List.exists_cons_of_ne_nil some_name
  rw [List.foldlM_cons] at walked
  obtain ⟨middle, step, -⟩ := Attempt.bind_eq_ok_iff.mp walked
  exact isFile_of_walkSegment step

theorem namesOf_splitOn_ne_nil (cs : List Char) : namesOf (Text.splitOn '/' cs) ≠ [] := by
  simp [namesOf]

/-- The text of segments leads where they lead. -/
theorem walk_spell (plain : (tree.statusAt place).isFile = false)
    (apart : ∀ s ∈ segments, '/' ∉ s) :
    (namesOf (Text.splitOn '/' (Path.spell absolute segments))).foldlM tree.walkSegment place =
      (namesOf segments).foldlM tree.walkSegment place := by
  have skip (rest : List Segment) : (namesOf ([] :: rest)).foldlM tree.walkSegment place =
      (namesOf rest).foldlM tree.walkSegment place := by
    rw [namesOf, List.map_cons, List.foldlM_cons, walkSegment_dot plain (.inl rfl)]
    rfl
  have relative : (namesOf (Text.splitOn '/' (Path.joinSegments segments))).foldlM
      tree.walkSegment place = (namesOf segments).foldlM tree.walkSegment place := by
    rcases eq_or_ne segments [] with rfl | some_segment
    · exact skip []
    · rw [Path.joinSegments, Text.splitOn_intercalate apart some_segment]
  cases absolute with
  | false => exact relative
  | true => rw [Path.spell, if_pos rfl, Text.splitOn_cons, if_pos rfl, skip, relative]

/-- A plain path is read as it stands. -/
theorem toList_normalize (plain : IsPlain path.toList) :
    (normalize path).toList = Path.spell (isAbsolute path)
      (normalSegments (isAbsolute path) (Text.splitOn '/' path.toList)) ∧
    (normalize path).toList.Sublist path.toList ∧
    isAbsolute (normalize path) = isAbsolute path := by
  have fixed : ∀ c ∈ path.toList, Path.unifySlash c = c :=
    fun c there => if_neg (ne_of_mem_of_not_mem there plain.no_backslash)
  have same : Path.unified path.toList = path.toList := by
    rw [Path.unified, Text.trimChars_eq_self_iff.mpr plain.trimmed, List.map_congr_left fixed,
      List.map_id']
  have rooted : isRooted path.toList = isAbsolute path := by
    rw [isRooted, same, isAbsolute, beq_eq_decide]
  have few := Path.normalizeChars_sublist path.toList
  rw [same] at few
  have chars : (normalize path).toList = Path.normalizeChars path.toList := String.toList_ofList
  refine ⟨?_, ?_, ?_⟩
  · rw [chars, Path.normalizeChars_eq, Path.segmentsOf, rooted, same]
  · rw [chars]
    exact few
  · rw [← rooted]
    exact (Path.isSpelled_normalizeChars path.toList).isAbsolute_ofList

theorem walk_normalize (plain : IsPlain path.toList)
    (open_place : (tree.statusAt place).isFile = false) :
    (namesOf (Text.splitOn '/' (normalize path).toList)).foldlM tree.walkSegment place =
      (namesOf (normalSegments (isAbsolute path) (Text.splitOn '/' path.toList))).foldlM
        tree.walkSegment place := by
  rw [(toList_normalize plain).1]
  refine walk_spell open_place fun s there => ?_
  exact (Text.of_mem_splitOn ((Path.normalSegments_sublist _ _).subset there)).1

/-- A path below a root that may be walked, and whose every part in front of a slash leads to a
directory. -/
structure IsPassable (tree : FileTree) (root path : String) : Prop where
  walkable : IsWalkable (join root path)
  directories : ∀ front behind, path.toList = front ++ '/' :: behind → front ≠ [] →
    tree.files.below root (String.ofList front) = .directory

/-- A front of a path is absolute if the path is. -/
theorem isAbsolute_ofList_front (spelled : path.toList = front ++ behind) (some_char : front ≠ []) :
    isAbsolute (String.ofList front) = isAbsolute path := by
  rw [isAbsolute, isAbsolute, String.toList_ofList, spelled,
    List.head?_append_of_ne_nil _ some_char]

/-- What is at a path is at its normal form, and every directory on the way is there. -/
theorem isThere_normalize (some_root : root ≠ "") (plain : IsPlain path.toList)
    (there : (tree.files.below root path).isThere = true) :
    tree.files.below root (normalize path) = tree.files.below root path ∧
      tree.IsPassable root path := by
  obtain ⟨place, walked⟩ := isThere_below_iff_walk.mp there
  obtain ⟨walkable, door, entered, arrived⟩ := (walk_join_eq_ok_iff some_root).mp walked
  obtain ⟨-, few, same⟩ := toList_normalize plain
  have open_door := isFile_of_walk (namesOf_splitOn_ne_nil _) arrived
  refine ⟨?_, walkable, fun front behind spelled some_char => ?_⟩
  · have normal : tree.walk (join root (normalize path)) = .ok place := by
      refine (walk_join_eq_ok_iff some_root).mpr
        ⟨walkable.join_mono some_root same few, door, by rw [same]; exact entered, ?_⟩
      rw [walk_normalize plain open_door]
      exact walk_normalSegments (entrance_rooted entered) arrived
    rw [below_of_walk normal, below_of_walk walked]
  · rw [spelled, Text.splitOn_append, namesOf_append, List.foldlM_append] at arrived
    obtain ⟨middle, front_walked, rest⟩ := Attempt.bind_eq_ok_iff.mp arrived
    have rooted := isAbsolute_ofList_front spelled some_char
    have shorter : (String.ofList front).toList.Sublist path.toList := by
      rw [String.toList_ofList, spelled]
      exact List.sublist_append_left _ _
    have reached : tree.walk (join root (String.ofList front)) = .ok middle := by
      refine (walk_join_eq_ok_iff some_root).mpr
        ⟨walkable.join_mono some_root rooted shorter, door, by rw [rooted]; exact entered, ?_⟩
      rw [String.toList_ofList]
      exact front_walked
    rw [below_of_walk reached]
    exact eq_directory_iff.mpr ⟨isThere_of_walk (isThere_entrance entered) front_walked,
      isFile_of_walk (namesOf_splitOn_ne_nil _) rest⟩

/-- Behind the directories that a path names, its last segment leads to what is at the normal
form. -/
theorem isThere_of_normalize (some_root : root ≠ "") (plain : IsPlain path.toList)
    (there : (tree.files.below root (normalize path)).isThere = true)
    (passable : tree.IsPassable root path) : (tree.files.below root path).isThere = true := by
  obtain ⟨place, walked⟩ := isThere_below_iff_walk.mp there
  obtain ⟨-, door, entered, arrived⟩ := (walk_join_eq_ok_iff some_root).mp walked
  have open_door := isFile_of_walk (namesOf_splitOn_ne_nil _) arrived
  rw [walk_normalize plain open_door] at arrived
  rw [(toList_normalize plain).2.2] at entered
  obtain ⟨front, last, split, middle, front_walked, open_middle⟩ :
      ∃ front last, Text.splitOn '/' path.toList = front ++ [last] ∧
        ∃ middle, (namesOf front).foldlM tree.walkSegment door = .ok middle ∧
          (tree.statusAt middle).isFile = false := by
    rcases Text.exists_last_slash path.toList with apart | ⟨front, last, spelled, apart⟩
    · exact ⟨[], path.toList, Text.splitOn_eq_singleton apart, door, rfl, open_door⟩
    · refine ⟨Text.splitOn '/' front, last, ?_, ?_⟩
      · rw [spelled, Text.splitOn_append, Text.splitOn_eq_singleton apart]
      · rcases eq_or_ne front [] with rfl | some_char
        · exact ⟨door, by simpa [namesOf] using walkSegment_dot open_door (.inl rfl), open_door⟩
        · have directory := passable.directories front last spelled some_char
          obtain ⟨inside, no_file⟩ := eq_directory_iff.mp directory
          obtain ⟨middle, reached⟩ := isThere_below_iff_walk.mp inside
          rw [below_of_walk reached] at no_file
          obtain ⟨-, door', entered', front_walked⟩ := (walk_join_eq_ok_iff some_root).mp reached
          rw [isAbsolute_ofList_front spelled some_char] at entered'
          obtain rfl := Except.ok.inj (entered.symm.trans entered')
          rw [String.toList_ofList] at front_walked
          exact ⟨middle, front_walked, no_file⟩
  rw [split] at arrived
  obtain ⟨next, step⟩ := exists_walkSegment_of_normal (entrance_rooted entered) front_walked
    open_middle arrived
  refine isThere_below_iff_walk.mpr ⟨next, (walk_join_eq_ok_iff some_root).mpr
    ⟨passable.walkable, door, entered, ?_⟩⟩
  rw [split]
  exact walk_append_singleton.mpr ⟨middle, front_walked, step⟩

theorem isThere_below_iff (some_root : root ≠ "") (plain : IsPlain path.toList) :
    (tree.files.below root path).isThere = true ↔
      (tree.files.below root (normalize path)).isThere = true ∧ tree.IsPassable root path := by
  constructor
  · intro there
    obtain ⟨same, passable⟩ := isThere_normalize some_root plain there
    exact ⟨by rw [same]; exact there, passable⟩
  · rintro ⟨there, passable⟩
    exact isThere_of_normalize some_root plain there passable

/-! ## Other spellings -/

/-- No name in a tree holds a backslash, or begins or ends with a blank. -/
def HasPlainNames (tree : FileTree) : Prop :=
  ∀ entry ∈ tree.entries, ∀ name ∈ entry.1, IsPlain name.toList

theorem isPlain_dots : IsPlain "".toList ∧ IsPlain ".".toList ∧ IsPlain "..".toList := by
  have dot : Text.isBlank '.' = false := by decide
  refine ⟨⟨⟨?_, ?_⟩, ?_⟩, ⟨⟨?_, ?_⟩, ?_⟩, ⟨⟨?_, ?_⟩, ?_⟩⟩ <;> simp [dot]

instance : DecidablePred HasPlainNames :=
  fun tree => inferInstanceAs
    (Decidable (∀ entry ∈ tree.entries, ∀ name ∈ entry.1, IsPlain name.toList))

/-- A walk meets names of the tree only. -/
theorem HasPlainNames.isPlain_of_walkSegment (plain : tree.HasPlainNames)
    (step : tree.walkSegment place name = .ok next) : IsPlain name.toList := by
  unfold walkSegment at step
  split at step
  · cases step
  · split at step
    · rename_i dot
      rw [Bool.or_eq_true, decide_eq_true_eq, decide_eq_true_eq] at dot
      rcases dot with rfl | rfl
      · exact isPlain_dots.1
      · exact isPlain_dots.2.1
    · split at step
      · rename_i climb
        exact climb ▸ isPlain_dots.2.2
      · obtain ⟨here, -, listed⟩ := exists_isThere_of_down step
        rcases isThere_inside_iff.mp listed with nothing | ⟨entry, there, within⟩
        · simp at nothing
        · exact plain entry there name (within.subset (by simp))

theorem HasPlainNames.isPlain_of_walk (plain : tree.HasPlainNames)
    (walked : names.foldlM tree.walkSegment place = .ok next) :
    ∀ name ∈ names, IsPlain name.toList := by
  induction names generalizing place with
  | nil => nofun
  | cons name names ih =>
      rw [List.foldlM_cons] at walked
      obtain ⟨middle, step, rest⟩ := Attempt.bind_eq_ok_iff.mp walked
      exact List.forall_mem_cons.mpr ⟨plain.isPlain_of_walkSegment step, ih rest⟩

/-- A path is plain if its segments are. -/
theorem isPlain_of_segments {cs : List Char} (plain : ∀ s ∈ Text.splitOn '/' cs, IsPlain s) :
    IsPlain cs := by
  refine ⟨⟨fun c first => ?_, fun c last => ?_⟩, ?_⟩
  · cases cs with
    | nil => cases first
    | cons d cs =>
        obtain rfl : d = c := Option.some.inj first
        by_cases slash : d = '/'
        · exact slash ▸ rfl
        · obtain ⟨s, rest, split⟩ := List.exists_cons_of_ne_nil (Text.splitOn_ne_nil '/' cs)
          rw [Text.splitOn_cons, if_neg slash, split, List.modifyHead_cons] at plain
          exact (plain _ List.mem_cons_self).trimmed.first d rfl
  · rcases Text.exists_last_slash cs with apart | ⟨front, s, rfl, apart⟩
    · rw [Text.splitOn_eq_singleton apart] at plain
      exact (plain _ List.mem_cons_self).trimmed.last c last
    · rw [Text.splitOn_append, Text.splitOn_eq_singleton apart] at plain
      rcases eq_or_ne s [] with rfl | some_char
      · rw [List.getLast?_append_of_ne_nil _ (List.cons_ne_nil _ _)] at last
        obtain rfl : '/' = c := Option.some.inj last
        rfl
      · have end_of_segment : s.getLast? = some c := by
          rwa [List.getLast?_append_of_ne_nil _ (List.cons_ne_nil _ _),
            List.getLast?_cons_of_ne_nil some_char] at last
        exact (plain s (by simp)).trimmed.last c end_of_segment
  · have other : '\\' ≠ '/' := by decide
    have joined := Text.notMem_intercalate other fun s there => (plain s there).no_backslash
    rwa [Text.intercalate_splitOn] at joined

/-- In a tree of plain names nothing is at any other spelling. -/
theorem HasPlainNames.isPlain_of_isThere (plain : tree.HasPlainNames) (some_root : root ≠ "")
    (there : (tree.files.below root path).isThere = true) : IsPlain path.toList := by
  obtain ⟨place, walked⟩ := isThere_below_iff_walk.mp there
  obtain ⟨-, door, -, arrived⟩ := (walk_join_eq_ok_iff some_root).mp walked
  refine isPlain_of_segments fun s piece => ?_
  have named := plain.isPlain_of_walk arrived (String.ofList s) (List.mem_map_of_mem piece)
  rwa [String.toList_ofList] at named

end FileTree

end CommitSplit
