import CommitSplit.Digraph.Linking
import CommitSplit.Proofs.FirstSeen
import Mathlib.Logic.Relation

/-!
# Blocks are the components of the links

After all links two items have the same label exactly when a walk along links, in either direction,
leads from one to the other. Collecting items by label keeps their order, loses none and repeats
none, whatever the labels are.
-/

namespace CommitSplit.Digraph

/-! ## Labels -/

variable {size i j : Nat} {labels : List Nat} {links : List (Nat × Nat)}

/-- Two places are linked, in either direction. A link to a place that does not exist is none. -/
def Linked (size : Nat) (links : List (Nat × Nat)) (i j : Nat) : Prop :=
  (i < size ∧ j < size) ∧ ((i, j) ∈ links ∨ (j, i) ∈ links)

theorem Linked.symm (h : Linked size links i j) : Linked size links j i :=
  ⟨h.1.symm, h.2.symm⟩

theorem Linked.append (h : Linked size links i j) (more : List (Nat × Nat)) :
    Linked size (links ++ more) i j :=
  ⟨h.1, h.2.imp (List.mem_append_left _) (List.mem_append_left _)⟩

@[simp] theorem length_joinLabels (labels : List Nat) (link : Nat × Nat) :
    (joinLabels labels link).length = labels.length := by
  unfold joinLabels
  split <;> simp

/-- A link between two places gives the label of the first to all that share that of the second. -/
theorem joinLabels_eq (hi : i < labels.length) (hj : j < labels.length) :
    joinLabels labels (i, j) =
      labels.map fun label => if label = labels[j] then labels[i] else label := by
  simp [joinLabels, hi, hj]

theorem joinLabels_of_outside (outside : ¬(i < labels.length ∧ j < labels.length)) :
    joinLabels labels (i, j) = labels := by
  rcases not_and_or.mp outside with far | far
  · simp [joinLabels, List.getElem?_eq_none (Nat.not_lt.mp far)]
  · simp [joinLabels, List.getElem?_eq_none (Nat.not_lt.mp far)]

/-- What has the same label keeps it. -/
theorem joinLabels_same (link : Nat × Nat) (h : labels[i]? = labels[j]?) :
    (joinLabels labels link)[i]? = (joinLabels labels link)[j]? := by
  unfold joinLabels
  split
  · simp [h]
  · exact h

/-- What gets the same label by a link had it, or had the labels of the two ends. -/
theorem of_joinLabels_same {a b : Nat} (ha : a < labels.length) (hb : b < labels.length)
    (hi : i < labels.length) (hj : j < labels.length)
    (same : (joinLabels labels (a, b))[i]? = (joinLabels labels (a, b))[j]?) :
    labels[i]? = labels[j]? ∨ (labels[i]? = labels[a]? ∧ labels[b]? = labels[j]?) ∨
      (labels[i]? = labels[b]? ∧ labels[a]? = labels[j]?) := by
  rw [joinLabels_eq ha hb] at same
  simp only [List.getElem?_map, List.getElem?_eq_getElem, ha, hb, hi, hj, Option.map_some,
    Option.some_inj] at same ⊢
  split at same <;> split at same
  · rename_i left right
    exact .inl (left.trans right.symm)
  · rename_i left right
    exact .inr (.inr ⟨left, same⟩)
  · rename_i left right
    exact .inr (.inl ⟨same, right.symm⟩)
  · exact .inl same

@[simp] theorem linkLabels_nil (size : Nat) : linkLabels size [] = List.range size := rfl

theorem linkLabels_append_singleton (size : Nat) (links : List (Nat × Nat)) (link : Nat × Nat) :
    linkLabels size (links ++ [link]) = joinLabels (linkLabels size links) link := by
  simp [linkLabels]

@[simp] theorem length_linkLabels (size : Nat) (links : List (Nat × Nat)) :
    (linkLabels size links).length = size := by
  induction links using List.reverseRecOn with
  | nil => simp
  | append_singleton links link ih => rw [linkLabels_append_singleton, length_joinLabels, ih]

/-- The ends of a link have one label, which later links keep. -/
theorem linkLabels_of_linked (h : Linked size links i j) :
    (linkLabels size links)[i]? = (linkLabels size links)[j]? := by
  induction links using List.reverseRecOn generalizing i j with
  | nil => simp [Linked] at h
  | append_singleton links link ih =>
      rw [linkLabels_append_singleton]
      have last : ∀ {a b}, a < size → b < size → link = (a, b) →
          (joinLabels (linkLabels size links) link)[a]? =
            (joinLabels (linkLabels size links) link)[b]? := by
        rintro a b ha hb rfl
        have ha' : a < (linkLabels size links).length := by simpa using ha
        have hb' : b < (linkLabels size links).length := by simpa using hb
        rw [joinLabels_eq ha' hb', List.getElem?_map, List.getElem?_map,
          List.getElem?_eq_getElem ha', List.getElem?_eq_getElem hb']
        simp
      obtain ⟨⟨hi, hj⟩, there⟩ := h
      simp only [List.mem_append, List.mem_singleton] at there
      rcases there with (early | late) | (early | late)
      · exact joinLabels_same link (ih ⟨⟨hi, hj⟩, .inl early⟩)
      · exact last hi hj late.symm
      · exact joinLabels_same link (ih ⟨⟨hi, hj⟩, .inr early⟩)
      · exact (last hj hi late.symm).symm

/-- Items with one label are joined by a walk: a link joins two labels only where it joins items. -/
theorem walk_of_linkLabels (hi : i < size) (hj : j < size)
    (same : (linkLabels size links)[i]? = (linkLabels size links)[j]?) :
    Relation.ReflTransGen (Linked size links) i j := by
  induction links using List.reverseRecOn generalizing i j with
  | nil =>
      obtain rfl : i = j := by simpa [hi, hj] using same
      exact .refl
  | append_singleton links link ih =>
      obtain ⟨a, b⟩ := link
      have front : ∀ {i j}, i < size → j < size →
          (linkLabels size links)[i]? = (linkLabels size links)[j]? →
            Relation.ReflTransGen (Linked size (links ++ [(a, b)])) i j :=
        fun hi hj same =>
          Relation.ReflTransGen.mono (fun _ _ h => Linked.append h _) _ _ (ih hi hj same)
      rw [linkLabels_append_singleton] at same
      by_cases inside : a < size ∧ b < size
      · have last : Linked size (links ++ [(a, b)]) a b := ⟨inside, by simp⟩
        obtain ⟨ha, hb⟩ := inside
        rcases of_joinLabels_same (by simpa) (by simpa) (by simpa) (by simpa) same with
          old | ⟨left, right⟩ | ⟨left, right⟩
        · exact front hi hj old
        · exact ((front hi ha left).tail last).trans (front hb hj right)
        · exact ((front hi hb left).tail last.symm).trans (front ha hj right)
      · rw [joinLabels_of_outside (by simpa using inside)] at same
        exact front hi hj same

/-- Two items have one label exactly when links join them. -/
theorem linkLabels_eq_iff (hi : i < size) (hj : j < size) :
    (linkLabels size links)[i]? = (linkLabels size links)[j]? ↔
      Relation.ReflTransGen (Linked size links) i j := by
  constructor
  · exact walk_of_linkLabels hi hj
  · intro walk
    induction walk with
    | refl => rfl
    | tail _ last ih => exact (ih last.1.1).trans (linkLabels_of_linked last)

/-! ## Items by label -/

variable {α : Type} {x y : α} {label : Nat} {labelled : List (α × Nat)} {block : List α}

/-- The items of one label. -/
def withLabel (labelled : List (α × Nat)) (label : Nat) : List α :=
  (labelled.filter fun item => item.2 = label).map Prod.fst

/-- Labelled items by label, the labels in first-seen order. -/
def byLabel (labelled : List (α × Nat)) : List (List α) :=
  (FirstSeen.of (labelled.map Prod.snd)).map (withLabel labelled)

@[simp] theorem mem_withLabel : x ∈ withLabel labelled label ↔ (x, label) ∈ labelled := by
  simp [withLabel]

theorem withLabel_append (front back : List (α × Nat)) (label : Nat) :
    withLabel (front ++ back) label = withLabel front label ++ withLabel back label := by
  simp [withLabel]

theorem mem_byLabel :
    block ∈ byLabel labelled ↔ ∃ item ∈ labelled, withLabel labelled item.2 = block := by
  simp only [byLabel, List.mem_map, FirstSeen.mem_of, exists_exists_and_eq_and]

/-- Two items share a block exactly when they share a label. -/
theorem exists_byLabel_iff :
    (∃ block ∈ byLabel labelled, x ∈ block ∧ y ∈ block) ↔
      ∃ label, (x, label) ∈ labelled ∧ (y, label) ∈ labelled := by
  constructor
  · rintro ⟨block, there, hx, hy⟩
    obtain ⟨item, -, rfl⟩ := mem_byLabel.mp there
    exact ⟨item.2, mem_withLabel.mp hx, mem_withLabel.mp hy⟩
  · rintro ⟨label, hx, hy⟩
    exact ⟨withLabel labelled label, mem_byLabel.mpr ⟨_, hx, rfl⟩, mem_withLabel.mpr hx,
      mem_withLabel.mpr hy⟩

theorem ne_nil_of_mem_byLabel (h : block ∈ byLabel labelled) : block ≠ [] := by
  obtain ⟨⟨x, label⟩, there, rfl⟩ := mem_byLabel.mp h
  exact List.ne_nil_of_mem (mem_withLabel.mpr there)

theorem sublist_of_mem_byLabel (h : block ∈ byLabel labelled) :
    block.Sublist (labelled.map Prod.fst) := by
  obtain ⟨item, -, rfl⟩ := mem_byLabel.mp h
  exact List.filter_sublist.map _

/-- Collecting by distinct labels that cover all items keeps every item as often as it was there. -/
theorem perm_flatten_withLabel {labels : List Nat} (nodup : labels.Nodup)
    (known : ∀ item ∈ labelled, item.2 ∈ labels) :
    (labels.map (withLabel labelled)).flatten.Perm (labelled.map Prod.fst) := by
  induction labels generalizing labelled with
  | nil =>
      obtain rfl : labelled = [] :=
        List.eq_nil_iff_forall_not_mem.mpr fun item h => List.not_mem_nil (known item h)
      exact .refl _
  | cons label labels ih =>
      obtain ⟨fresh, nodup⟩ := List.nodup_cons.mp nodup
      -- The other labels collect from the items that the first one leaves.
      have others : labels.map (withLabel labelled) =
          labels.map (withLabel (labelled.filter fun item => !decide (item.2 = label))) := by
        apply List.map_congr_left
        intro other hother
        have apart : other ≠ label := by
          rintro rfl
          exact fresh hother
        rw [withLabel, withLabel, List.filter_filter]
        congr 1
        apply List.filter_congr
        intro item _
        by_cases h : item.2 = other <;> simp [h, apart]
      rw [List.map_cons, List.flatten_cons, others]
      refine ((ih nodup ?_).append_left _).trans ?_
      · intro item hitem
        obtain ⟨there, other⟩ := List.mem_filter.mp hitem
        rcases List.mem_cons.mp (known item there) with same | later
        · simp [same] at other
        · exact later
      · rw [withLabel, ← List.map_append]
        exact (List.filter_append_perm _ labelled).map _

theorem perm_flatten_byLabel (labelled : List (α × Nat)) :
    (byLabel labelled).flatten.Perm (labelled.map Prod.fst) :=
  perm_flatten_withLabel (FirstSeen.nodup_of _) fun _ h =>
    FirstSeen.mem_of.mpr (List.mem_map_of_mem h)

/-- The first items of the blocks are in the order of the items. -/
theorem heads_byLabel_sublist (labelled : List (α × Nat)) :
    ((byLabel labelled).filterMap List.head?).Sublist (labelled.map Prod.fst) := by
  induction labelled using List.reverseRecOn with
  | nil => exact .refl _
  | append_singleton labelled item ih =>
      obtain ⟨x, label⟩ := item
      -- The new item comes behind the first items of all blocks that there were.
      have unmoved : ∀ known ∈ FirstSeen.of (labelled.map Prod.snd),
          (withLabel (labelled ++ [(x, label)]) known).head? =
            (withLabel labelled known).head? := by
        intro known there
        obtain ⟨first, hfirst, rfl⟩ := List.mem_map.mp (FirstSeen.mem_of.mp there)
        have some_item : withLabel labelled first.2 ≠ [] :=
          List.ne_nil_of_mem (mem_withLabel.mpr hfirst)
        rw [withLabel_append, List.head?_append_of_ne_nil _ some_item]
      have heads_eq (keys : List Nat) (items : List (α × Nat)) :
          (keys.map (withLabel items)).filterMap List.head? =
            keys.filterMap fun key => (withLabel items key).head? := by
        rw [List.filterMap_map]
        rfl
      rw [byLabel, heads_eq] at ih ⊢
      simp only [List.map_append, List.map_cons, List.map_nil]
      rw [FirstSeen.of_append_singleton, FirstSeen.add]
      split
      · rw [List.filterMap_congr unmoved]
        exact ih.trans (List.sublist_append_left _ _)
      · rename_i fresh
        have none_before : withLabel labelled label = [] := by
          refine List.eq_nil_iff_forall_not_mem.mpr fun y hy => fresh (FirstSeen.mem_of.mpr ?_)
          exact List.mem_map.mpr ⟨_, mem_withLabel.mp hy, rfl⟩
        have alone : withLabel (labelled ++ [(x, label)]) label = [x] := by
          rw [withLabel_append, none_before]
          simp [withLabel]
        rw [List.filterMap_append, List.filterMap_congr unmoved]
        exact ih.append (by simp [alone])

/-! ## Blocks -/

variable {items : List α}

theorem blocks_eq (items : List α) (links : List (Nat × Nat)) :
    blocks items links = byLabel (items.zip (linkLabels items.length links)) := by
  rw [blocks, byLabel, List.map_snd_zip (by simp)]
  rfl

theorem map_fst_zip_linkLabels (items : List α) (links : List (Nat × Nat)) :
    (items.zip (linkLabels items.length links)).map Prod.fst = items :=
  List.map_fst_zip (by simp)

theorem ne_nil_of_mem_blocks (h : block ∈ blocks items links) : block ≠ [] :=
  ne_nil_of_mem_byLabel (blocks_eq items links ▸ h)

theorem sublist_of_mem_blocks (h : block ∈ blocks items links) : block.Sublist items := by
  have sublist := sublist_of_mem_byLabel (blocks_eq items links ▸ h)
  rwa [map_fst_zip_linkLabels] at sublist

theorem perm_flatten_blocks (items : List α) (links : List (Nat × Nat)) :
    (blocks items links).flatten.Perm items := by
  have perm := perm_flatten_byLabel (items.zip (linkLabels items.length links))
  rwa [map_fst_zip_linkLabels, ← blocks_eq] at perm

theorem heads_blocks_sublist (items : List α) (links : List (Nat × Nat)) :
    ((blocks items links).filterMap List.head?).Sublist items := by
  have heads := heads_byLabel_sublist (items.zip (linkLabels items.length links))
  rwa [map_fst_zip_linkLabels, ← blocks_eq] at heads

/-- Two items share a block exactly when a walk along links joins their places. -/
theorem exists_block_iff (nodup : items.Nodup) (hi : items[i]? = some x) (hj : items[j]? = some y) :
    (∃ block ∈ blocks items links, x ∈ block ∧ y ∈ block) ↔
      Relation.ReflTransGen (Linked items.length links) i j := by
  have label_iff {k : Nat} {z : α} {label : Nat} (hk : items[k]? = some z) :
      (z, label) ∈ items.zip (linkLabels items.length links) ↔
        (linkLabels items.length links)[k]? = some label := by
    rw [List.mem_iff_getElem?]
    simp only [List.getElem?_zip_eq_some]
    constructor
    · rintro ⟨l, hl, there⟩
      have same : l = k :=
        (List.getElem?_inj (List.getElem?_eq_some_iff.mp hl).1 nodup).mp (hl.trans hk.symm)
      exact same ▸ there
    · exact fun there => ⟨k, hk, there⟩
  have ilt : i < items.length := (List.getElem?_eq_some_iff.mp hi).1
  have jlt : j < items.length := (List.getElem?_eq_some_iff.mp hj).1
  rw [blocks_eq, exists_byLabel_iff, ← linkLabels_eq_iff ilt jlt]
  simp only [label_iff hi, label_iff hj]
  constructor
  · rintro ⟨label, left, right⟩
    exact left.trans right.symm
  · intro same
    have inside : i < (linkLabels items.length links).length := by simpa using ilt
    have label := List.getElem?_eq_getElem inside
    exact ⟨_, label, same ▸ label⟩

end CommitSplit.Digraph
