import CommitSplit.Proofs.Group.Formation
import Mathlib.Data.List.Flatten

/-!
# Divisions of the changed files

A division is known when it is known which items are together: the order of the parts and the order
within them come from the list that is divided. So parts can be taken away as a whole. The groups of
the files in the other parts are the other parts, because no chain of dependencies leaves a part.
-/

namespace CommitSplit

/-- In a list without repetitions a sublist is known by its elements. -/
theorem filter_mem_eq_of_sublist {α : Type} [DecidableEq α] {few items : List α}
    (h : few.Sublist items) (nodup : items.Nodup) : items.filter (· ∈ few) = few := by
  induction h with
  | slnil => rfl
  | @cons few items a h ih =>
      obtain ⟨fresh, rest⟩ := List.nodup_cons.mp nodup
      rw [List.filter_cons_of_neg (by simpa using fun there => fresh (h.mem there)), ih rest]
  | @cons_cons few items a h ih =>
      obtain ⟨fresh, rest⟩ := List.nodup_cons.mp nodup
      rw [List.filter_cons_of_pos (by simp)]
      congr 1
      conv_rhs => rw [← ih rest]
      refine List.filter_congr fun b there => ?_
      simp [ne_of_mem_of_not_mem there fresh]

/-- Parts with items, none of which is repeated in a part or in two of them. -/
structure Separate {α : Type} (parts : List (List α)) : Prop where
  ne_nil : ∀ part ∈ parts, part ≠ []
  nodup : parts.flatten.Nodup

theorem Separate.eq_of_mem {α : Type} {parts : List (List α)} {part part' : List α} {a : α}
    (h : Separate parts) (hpart : part ∈ parts) (hpart' : part' ∈ parts) (ha : a ∈ part)
    (ha' : a ∈ part') : part = part' := by
  have : Std.Symm (List.Disjoint (α := α)) := ⟨fun _ _ => List.Disjoint.symm⟩
  by_contra different
  exact (List.nodup_flatten.mp h.nodup).2.forall hpart hpart' different ha ha'

namespace Divides

variable {α : Type} {parts parts' few : List (List α)} {items part part' : List α} {a : α}

theorem exists_part (h : Divides parts items) (there : a ∈ items) : ∃ part ∈ parts, a ∈ part :=
  List.mem_flatten.mp (h.perm.mem_iff.mpr there)

theorem separate (h : Divides parts items) (nodup : items.Nodup) : Separate parts :=
  ⟨h.ne_nil, h.perm.nodup_iff.mpr nodup⟩

/-- Parts share no item. -/
theorem eq_of_mem_part (h : Divides parts items) (nodup : items.Nodup) (hpart : part ∈ parts)
    (hpart' : part' ∈ parts) (ha : a ∈ part) (ha' : a ∈ part') : part = part' :=
  (h.separate nodup).eq_of_mem hpart hpart' ha ha'

variable [DecidableEq α]

/-- The items that share a part with an item. -/
def partOf (parts : List (List α)) (items : List α) (a : α) : List α :=
  items.filter fun b => ∃ part ∈ parts, a ∈ part ∧ b ∈ part

theorem partOf_eq (h : Divides parts items) (nodup : items.Nodup) (hpart : part ∈ parts)
    (ha : a ∈ part) : partOf parts items a = part := by
  conv_rhs => rw [← filter_mem_eq_of_sublist (h.sublist part hpart) nodup]
  refine List.filter_congr fun b _ => ?_
  rw [decide_eq_decide]
  constructor
  · rintro ⟨part', hpart', ha', hb⟩
    rwa [h.eq_of_mem_part nodup hpart hpart' ha ha']
  · exact fun hb => ⟨part, hpart, ha, hb⟩

/-- The parts are those of the items that come first in their parts. -/
theorem eq_map_partOf (h : Divides parts items) (nodup : items.Nodup) :
    parts =
      (items.filter fun a => (partOf parts items a).head? = some a).map (partOf parts items) := by
  have heads_eq : items.filter (fun a => (partOf parts items a).head? = some a) =
      parts.filterMap List.head? := by
    conv_rhs => rw [← filter_mem_eq_of_sublist h.heads nodup]
    refine List.filter_congr fun a ha => ?_
    rw [decide_eq_decide, List.mem_filterMap]
    constructor
    · intro head
      obtain ⟨part, hpart, ha⟩ := h.exists_part ha
      rw [h.partOf_eq nodup hpart ha] at head
      exact ⟨part, hpart, head⟩
    · rintro ⟨part, hpart, head⟩
      rwa [h.partOf_eq nodup hpart (List.mem_of_mem_head? head)]
  rw [heads_eq, List.map_filterMap]
  conv_lhs => rw [← List.filterMap_some (l := parts)]
  refine List.filterMap_congr fun part hpart => ?_
  rw [List.head?_eq_some_head (h.ne_nil part hpart), Option.map_some,
    h.partOf_eq nodup hpart (List.head_mem _)]

/-- Which items are together decides the whole division. -/
theorem eq_of_together (h : Divides parts items) (h' : Divides parts' items)
    (nodup : items.Nodup)
    (together : ∀ a ∈ items, ∀ b ∈ items,
      (∃ part ∈ parts, a ∈ part ∧ b ∈ part) ↔ ∃ part ∈ parts', a ∈ part ∧ b ∈ part) :
    parts = parts' := by
  have same (a) (ha : a ∈ items) : partOf parts items a = partOf parts' items a :=
    List.filter_congr fun b hb => decide_eq_decide.mpr (together a ha b hb)
  have first : items.filter (fun a => (partOf parts items a).head? = some a) =
      items.filter fun a => (partOf parts' items a).head? = some a :=
    List.filter_congr fun a ha => by rw [same a ha]
  rw [h.eq_map_partOf nodup, h'.eq_map_partOf nodup, first]
  exact List.map_congr_left fun a ha => same a (List.mem_of_mem_filter ha)

/-- Some of the parts divide their own items. -/
theorem of_sublist (h : Divides parts items) (nodup : items.Nodup)
    (some_parts : few.Sublist parts) : Divides few (items.filter (· ∈ few.flatten)) := by
  have mem_flatten {part : List α} (hpart : part ∈ few) (a) (ha : a ∈ part) : a ∈ few.flatten :=
    List.mem_flatten.mpr ⟨part, hpart, ha⟩
  -- A sublist of the items that stays within the parts is one of the filtered items.
  have inside {list : List α} (sub : list.Sublist items) (own : ∀ a ∈ list, a ∈ few.flatten) :
      list.Sublist (items.filter (· ∈ few.flatten)) := by
    have all : list.filter (· ∈ few.flatten) = list := by simpa using own
    exact all ▸ sub.filter _
  constructor
  case ne_nil => exact fun part hpart => h.ne_nil part (some_parts.mem hpart)
  case perm =>
    have flat := some_parts.flatten
    refine (List.perm_ext_iff_of_nodup ((h.perm.nodup_iff.mpr nodup).sublist flat)
      (nodup.filter _)).mpr fun a => ?_
    simp only [List.mem_filter, decide_eq_true_eq]
    exact ⟨fun ha => ⟨h.perm.mem_iff.mp (flat.mem ha), ha⟩, And.right⟩
  case sublist =>
    exact fun part hpart => inside (h.sublist part (some_parts.mem hpart)) (mem_flatten hpart)
  case heads =>
    refine inside ((some_parts.filterMap _).trans h.heads) fun a ha => ?_
    obtain ⟨part, hpart, head⟩ := List.mem_filterMap.mp ha
    exact mem_flatten hpart a (List.mem_of_mem_head? head)

end Divides

namespace Group

variable {g : Graph} {paths : List String} {few : List (List String)} {a b : String}

theorem LinkedIn.mono {some_paths : List String} (sub : ∀ path ∈ some_paths, path ∈ paths)
    (link : LinkedIn g some_paths a b) : LinkedIn g paths a b :=
  ⟨⟨sub a link.1.1, sub b link.1.2⟩, link.2⟩

/-- A chain that begins in one of some parts stays in it. -/
theorem reflTransGen_of_part (nodup : paths.Nodup)
    (some_parts : few.Sublist (partsOf (some g) paths)) {part : List String} (hpart : part ∈ few)
    (ha : a ∈ part) (chain : Relation.ReflTransGen (LinkedIn g paths) a b) :
    b ∈ part ∧ Relation.ReflTransGen (LinkedIn g (paths.filter (· ∈ few.flatten))) a b := by
  have divides := divides_partsOf (some g) paths
  have ha' : a ∈ paths := (divides.sublist part (some_parts.mem hpart)).mem ha
  induction chain with
  | refl => exact ⟨ha, .refl⟩
  | @tail b d chain link ih =>
      obtain ⟨hb, kept⟩ := ih
      obtain ⟨part', hpart', ha₂, hd⟩ :=
        (exists_part_iff nodup ha' link.1.2).mpr (chain.tail link)
      obtain rfl := divides.eq_of_mem_part nodup (some_parts.mem hpart) hpart' ha ha₂
      have own (path) (there : path ∈ part) : path ∈ few.flatten :=
        List.mem_flatten.mpr ⟨part, hpart, there⟩
      refine ⟨hd, kept.tail ⟨⟨?_, ?_⟩, link.2⟩⟩
      · exact List.mem_filter.mpr ⟨link.1.1, decide_eq_true (own b hb)⟩
      · exact List.mem_filter.mpr ⟨link.1.2, decide_eq_true (own d hd)⟩

/-- The files of some parts have these parts again. -/
theorem partsOf_filter (nodup : paths.Nodup)
    (some_parts : few.Sublist (partsOf (some g) paths)) :
    partsOf (some g) (paths.filter (· ∈ few.flatten)) = few := by
  have divides := divides_partsOf (some g) paths
  have rest := nodup.filter (· ∈ few.flatten)
  refine (divides_partsOf (some g) _).eq_of_together (divides.of_sublist nodup some_parts) rest
    fun a ha b hb => ?_
  rw [exists_part_iff rest ha hb]
  obtain ⟨ha', own⟩ := List.mem_filter.mp ha
  obtain ⟨part, hpart, own⟩ := List.mem_flatten.mp (of_decide_eq_true own)
  constructor
  · intro chain
    have more (a b) : LinkedIn g (paths.filter (· ∈ few.flatten)) a b → LinkedIn g paths a b :=
      LinkedIn.mono fun _ => List.mem_of_mem_filter
    have whole := Relation.ReflTransGen.mono more a b chain
    exact ⟨part, hpart, own, (reflTransGen_of_part nodup some_parts hpart own whole).1⟩
  · rintro ⟨part', hpart', ha₂, hb₂⟩
    have whole := (exists_part_iff nodup ha' (List.mem_of_mem_filter hb)).mp
      ⟨part', some_parts.mem hpart', ha₂, hb₂⟩
    exact (reflTransGen_of_part nodup some_parts hpart own whole).2

end Group

end CommitSplit
