import CommitSplit.Proofs.Graph.Cycles
import CommitSplit.Proofs.Group.Division
import CommitSplit.Proofs.Risk
import Mathlib.Data.Multiset.MapFold
import Mathlib.Data.Multiset.ZeroCons

/-!
# Groups in another order

The order of the changed files decides how the groups are numbered and how the files stand in them.
It decides nothing else: parts that share no item are known up to order when it is known which items
are together, and the risk and the cycles of a group are found file by file.
-/

namespace CommitSplit

/-! ## Parts -/

theorem Graph.WellFormed.separate_cycles {g : Graph} (h : g.WellFormed) : Separate g.cycles :=
  ⟨fun _ => h.ne_nil_of_mem_cycles, h.nodup_flatten_cycles⟩

namespace Separate

variable {α : Type} {parts parts' : List (List α)} {part part' : List α} {a : α}

theorem nodup_of_mem (h : Separate parts) (hpart : part ∈ parts) : part.Nodup :=
  (List.nodup_flatten.mp h.nodup).1 part hpart

theorem nodup_parts (h : Separate parts) : parts.Nodup := by
  refine (List.nodup_flatten.mp h.nodup).2.imp_of_mem ?_
  rintro part _ hpart - apart rfl
  obtain ⟨a, ha⟩ := List.exists_mem_of_ne_nil part (h.ne_nil part hpart)
  exact apart ha ha

/-- As sets of items the parts are distinct as well. -/
theorem nodup_map_ofList (h : Separate parts) :
    (Multiset.map Multiset.ofList (parts : Multiset (List α))).Nodup := by
  refine Multiset.Nodup.map_on (fun part hpart part' hpart' same => ?_)
    (Multiset.coe_nodup.mpr h.nodup_parts)
  obtain ⟨a, ha⟩ := List.exists_mem_of_ne_nil part (h.ne_nil part hpart)
  exact h.eq_of_mem hpart hpart' ha ((Multiset.coe_eq_coe.mp same).mem_iff.mp ha)

/-- A part holds the items that are together with one of its items. -/
theorem exists_perm (h : Separate parts) (h' : Separate parts')
    (together : ∀ a b, (∃ part ∈ parts, a ∈ part ∧ b ∈ part) ↔
      ∃ part ∈ parts', a ∈ part ∧ b ∈ part) (hpart : part ∈ parts) :
    ∃ part' ∈ parts', part'.Perm part := by
  obtain ⟨a, ha⟩ := List.exists_mem_of_ne_nil part (h.ne_nil part hpart)
  obtain ⟨part', hpart', ha', -⟩ := (together a a).mp ⟨part, hpart, ha, ha⟩
  refine ⟨part', hpart', ?_⟩
  refine (List.perm_ext_iff_of_nodup (h'.nodup_of_mem hpart') (h.nodup_of_mem hpart)).mpr
    fun b => ?_
  constructor
  · intro hb
    obtain ⟨own, hown, ha₂, hb₂⟩ := (together a b).mpr ⟨part', hpart', ha', hb⟩
    rwa [h.eq_of_mem hpart hown ha ha₂]
  · intro hb
    obtain ⟨own, hown, ha₂, hb₂⟩ := (together a b).mp ⟨part, hpart, ha, hb⟩
    rwa [h'.eq_of_mem hpart' hown ha' ha₂]

/-- Which items are together decides the parts up to order. -/
theorem rel_perm (h : Separate parts) (h' : Separate parts')
    (together : ∀ a b, (∃ part ∈ parts, a ∈ part ∧ b ∈ part) ↔
      ∃ part ∈ parts', a ∈ part ∧ b ∈ part) :
    Multiset.Rel List.Perm (parts : Multiset (List α)) (parts' : Multiset (List α)) := by
  have same : Multiset.map Multiset.ofList (parts : Multiset (List α)) =
      Multiset.map Multiset.ofList (parts' : Multiset (List α)) := by
    refine (Multiset.Nodup.ext h.nodup_map_ofList h'.nodup_map_ofList).mpr fun items => ?_
    simp only [Multiset.mem_map, Multiset.mem_coe]
    constructor
    · rintro ⟨part, hpart, rfl⟩
      obtain ⟨part', hpart', perm⟩ := h.exists_perm h' together hpart
      exact ⟨part', hpart', Multiset.coe_eq_coe.mpr perm⟩
    · rintro ⟨part, hpart, rfl⟩
      obtain ⟨part', hpart', perm⟩ := h'.exists_perm h (fun a b => (together a b).symm) hpart
      exact ⟨part', hpart', Multiset.coe_eq_coe.mpr perm⟩
  exact (Multiset.rel_map.mp (Multiset.rel_eq.mpr same)).mono
    fun _ _ _ _ => Multiset.coe_eq_coe.mp

end Separate

/-! ## Groups -/

/-- Two graphs that say the same about some files. -/
structure Graph.AgreeOn (g g' : Graph) (paths : List String) : Prop where
  dependencies : ∀ a ∈ paths, ∀ b ∈ paths, b ∈ g.dependencies a ↔ b ∈ g'.dependencies a
  memberRisk : ∀ path ∈ paths, g.memberRisk path = g'.memberRisk path
  isInCycle : ∀ path ∈ paths, g.isInCycle path = g'.isInCycle path

namespace Group

variable {g g' : Graph} {paths paths' : List String} {group other : Group}

/-- The same group but for its number, its rationale and the orders in which it lists its files. -/
structure Matches (group other : Group) : Prop where
  files : group.files.Perm other.files
  risk : group.risk = other.risk
  containsCycle : group.containsCycle = other.containsCycle

/-- Graphs that form matching groups and have matching cycles; both may be missing. -/
structure FormAlike (graph graph' : Option Graph) (paths paths' : List String) : Prop where
  groups : Multiset.Rel Matches (form graph paths : Multiset Group)
    (form graph' paths' : Multiset Group)
  cycles : Multiset.Rel List.Perm ((graph.map Graph.cycles).getD [] : Multiset (List String))
    ((graph'.map Graph.cycles).getD [] : Multiset (List String))

theorem containsCycle_of_mem_form (h : group ∈ form (some g) paths) :
    group.containsCycle = group.files.any g.isInCycle := by
  obtain ⟨_, -, rfl⟩ := List.mem_map.mp h
  rfl

/-- The same files make the same group in graphs that agree on them. -/
theorem matches_of_mem_form (agree : g.AgreeOn g' paths) (h : group ∈ form (some g) paths)
    (h' : other ∈ form (some g') paths') (perm : group.files.Perm other.files) :
    Matches group other := by
  refine ⟨perm, ?_, ?_⟩
  · rw [risk_of_mem_form h, risk_of_mem_form h', aggregateRisk, aggregateRisk,
      ← Risk.maximum_eq_of_perm (perm.map g'.memberRisk)]
    exact congrArg _ (List.map_congr_left fun path hpath =>
      agree.memberRisk path (mem_of_mem_files h hpath))
  · rw [containsCycle_of_mem_form h, containsCycle_of_mem_form h', ← perm.any_eq, Bool.eq_iff_iff,
      List.any_eq_true, List.any_eq_true]
    exact exists_congr fun path => and_congr_right fun hpath => by
      rw [agree.isInCycle path (mem_of_mem_files h hpath)]

/-- Groups match when their files do and the same files make the same group. -/
theorem rel_matches_form {graph graph' : Option Graph}
    (parts : Multiset.Rel List.Perm (partsOf graph paths : Multiset (List String))
      (partsOf graph' paths' : Multiset (List String)))
    (same : ∀ group ∈ form graph paths, ∀ other ∈ form graph' paths',
      group.files.Perm other.files → Matches group other) :
    Multiset.Rel Matches (form graph paths : Multiset Group)
      (form graph' paths' : Multiset Group) := by
  rw [← map_files_form, ← map_files_form, ← Multiset.map_coe, ← Multiset.map_coe,
    Multiset.rel_map] at parts
  exact parts.mono same

/-- Without a graph the files are alone in any order. -/
theorem rel_matches_form_none (perm : paths.Perm paths') :
    Multiset.Rel Matches (form none paths : Multiset Group)
      (form none paths' : Multiset Group) := by
  refine rel_matches_form ?_ ?_
  · rw [partsOf, partsOf, Multiset.coe_eq_coe.mpr (perm.map _)]
    exact Multiset.rel_refl_of_refl_on fun _ _ => .refl _
  · intro group h other h' files
    obtain ⟨_, -, rfl⟩ := List.mem_map.mp h
    obtain ⟨_, -, rfl⟩ := List.mem_map.mp h'
    exact ⟨files, rfl, rfl⟩

/-- Files that are together were changed. -/
theorem together_iff (nodup : paths.Nodup) {a b : String} :
    (∃ part ∈ partsOf (some g) paths, a ∈ part ∧ b ∈ part) ↔
      (a ∈ paths ∧ b ∈ paths) ∧ Relation.ReflTransGen (LinkedIn g paths) a b := by
  constructor
  · rintro ⟨part, hpart, ha, hb⟩
    have sub := (divides_partsOf (some g) paths).sublist part hpart
    have changed := And.intro (sub.mem ha) (sub.mem hb)
    exact ⟨changed, (exists_part_iff nodup changed.1 changed.2).mp ⟨part, hpart, ha, hb⟩⟩
  · rintro ⟨⟨ha, hb⟩, chain⟩
    exact (exists_part_iff nodup ha hb).mpr chain

/-- Graphs that agree on the files form matching groups of them. -/
theorem rel_matches_form_some (nodup : paths.Nodup) (perm : paths.Perm paths')
    (agree : g.AgreeOn g' paths) :
    Multiset.Rel Matches (form (some g) paths : Multiset Group)
      (form (some g') paths' : Multiset Group) := by
  have nodup' := perm.nodup nodup
  have linked_eq : LinkedIn g paths = LinkedIn g' paths' := by
    ext a b
    rw [LinkedIn, LinkedIn, ← perm.mem_iff, ← perm.mem_iff]
    apply and_congr_right
    rintro ⟨ha, hb⟩
    rw [agree.dependencies a ha b hb, agree.dependencies b hb a ha]
  refine rel_matches_form (Separate.rel_perm ((divides_partsOf _ _).separate nodup)
    ((divides_partsOf _ _).separate nodup') fun a b => ?_)
    fun group h other h' => matches_of_mem_form agree h h'
  rw [together_iff nodup, together_iff nodup', linked_eq, perm.mem_iff, perm.mem_iff]

end Group

end CommitSplit
