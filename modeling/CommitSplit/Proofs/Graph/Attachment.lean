import CommitSplit.Proofs.Graph.Targets

/-!
# What adding a dependency touches

A dependency is attached to one node and leaves all else as it was: the node of its source, or, if
the source has none, a node that is put behind all others. A new node is made from a path that was
normalized already, and making it normalizes the path again. Where the second normal form is another
one and some node has it, that node is replaced, no node is new, and the target goes to whatever
node is the last. So the normal paths, and those that have a node, are the sources whose
dependencies are found again under their paths.
-/

namespace CommitSplit.Graph

/-- Entries have no targets for a path that none of them has. -/
theorem targetsOf_of_notMem {entries : List Entry} {path : String}
    (unknown : path ∉ pathsOf entries) : targetsOf entries path = [] := by
  rw [targetsOf_eq, position?_eq_none_iff.mpr unknown]
  rfl

namespace Draft

/-- A target was attached to one node, and nothing else was touched. -/
inductive Attaches (d : Draft) (source target : String) : Draft → Prop
  /-- The node of the source keeps its value and its place; the target is behind those it had. -/
  | known {i : Nat} {entry : Entry} (there : d.entries[i]? = some entry)
      (path : entry.node.path = source) :
      Attaches d source target
        ⟨d.entries.set i { entry with targets := FirstSeen.add entry.targets target }⟩
  /-- The source had no node and gets one behind all others, with this target only. -/
  | fresh (unknown : source ∉ pathsOf d.entries) :
      Attaches d source target ⟨d.entries ++ [⟨Node.new source, [target]⟩]⟩

variable {d d' : Draft} {source target : String} {i : Nat}

/-- A new source adds an entry, and nothing else does. -/
theorem Attaches.size_eq (h : d.Attaches source target d') :
    d'.size = if source ∈ pathsOf d.entries then d.size else d.size + 1 := by
  cases h with
  | @known i entry there path =>
      have known : source ∈ pathsOf d.entries :=
        List.mem_map.mpr ⟨entry, List.mem_of_getElem? there, path⟩
      simp [known, size]
  | fresh unknown => simp [unknown, size]

theorem addTarget_eq_set {entry : Entry} (there : d.entries[i]? = some entry) (target : String) :
    d.addTarget i target =
      ⟨d.entries.set i { entry with targets := FirstSeen.add entry.targets target }⟩ := by
  rw [addTarget, List.modify_eq_set_getElem?, there]
  rfl

/-! ## The two ways of a dependency -/

section Named

variable (some_source : Path.normalize source ≠ "") (some_target : Path.normalize target ≠ "")

include some_source some_target

/-- A source that has a node is found at its place. -/
theorem addDependency_of_position? (found : position? d.entries (Path.normalize source) = some i) :
    d.addDependency source target = d.addTarget i (Path.normalize target) := by
  rw [addDependency]
  simp only [some_source, some_target, or_self, if_false, found]

/-- A source without a node is inserted first, and the target goes to the last place. -/
theorem addDependency_of_notMem (unknown : Path.normalize source ∉ pathsOf d.entries) :
    let inserted := d.insert (Node.new (Path.normalize source))
    d.addDependency source target =
      inserted.addTarget (inserted.size - 1) (Path.normalize target) := by
  rw [addDependency]
  simp only [some_source, some_target, or_self, if_false, position?_eq_none_iff.mpr unknown]

/-- The node that is made for a source has the normal form of the normal form of the source. -/
theorem pathsOf_addDependency_of_notMem (unknown : Path.normalize source ∉ pathsOf d.entries) :
    pathsOf (d.addDependency source target).entries =
      FirstSeen.add (pathsOf d.entries) (Path.normalize (Path.normalize source)) := by
  rw [addDependency_of_notMem some_source some_target unknown, pathsOf_addTarget, pathsOf_insert]
  rfl

/-- The edge is found under a source that had a node, or whose normal form is normal. -/
theorem mem_targetsOf_addDependency (found : Path.normalize source ∈ pathsOf d.entries ∨
      Path.normalize (Path.normalize source) = Path.normalize source) :
    Path.normalize target ∈
      targetsOf (d.addDependency source target).entries (Path.normalize source) := by
  rcases found with known | fixed
  · cases found : position? d.entries (Path.normalize source) with
    | none => exact absurd known (position?_eq_none_iff.mp found)
    | some i =>
        rw [addDependency_of_position? some_source some_target found, targetsOf_addTarget found,
          if_pos rfl, FirstSeen.mem_add]
        exact .inr rfl
  · have same : d.addDependency source target =
        d.addDependency (Path.normalize source) target := by
      rw [addDependency, addDependency, fixed]
    rw [same, targetsOf_addDependency fixed some_source, if_pos rfl, FirstSeen.mem_foldl_add,
      mem_keptTargets]
    exact .inr ⟨⟨target, List.mem_singleton_self target, rfl⟩, some_target⟩

/-- Otherwise the node that has the target goes by another path. -/
theorem targetsOf_addDependency_of_notMem (unknown : Path.normalize source ∉ pathsOf d.entries)
    (unstable : Path.normalize (Path.normalize source) ≠ Path.normalize source) :
    targetsOf (d.addDependency source target).entries (Path.normalize source) = [] := by
  apply targetsOf_of_notMem
  rw [pathsOf_addDependency_of_notMem some_source some_target unknown, FirstSeen.mem_add]
  exact not_or_intro unknown unstable.symm

/-! ## What is attached -/

theorem attaches_of_mem (known : Path.normalize source ∈ pathsOf d.entries) :
    d.Attaches (Path.normalize source) (Path.normalize target) (d.addDependency source target) := by
  cases found : position? d.entries (Path.normalize source) with
  | none => exact absurd known (position?_eq_none_iff.mp found)
  | some i =>
      have path := getElem?_of_position? found
      rw [pathsOf, List.getElem?_map] at path
      obtain ⟨entry, there, path⟩ := Option.map_eq_some_iff.mp path
      rw [addDependency_of_position? some_source some_target found, addTarget_eq_set there]
      exact .known there path

/-- A node whose path is new stands at the last place, so the target is its own. -/
theorem attaches_of_notMem (unknown : Path.normalize source ∉ pathsOf d.entries)
    (fresh : Path.normalize (Path.normalize source) ∉ pathsOf d.entries) :
    d.Attaches (Path.normalize source) (Path.normalize target) (d.addDependency source target) := by
  have inserted : d.insert (Node.new (Path.normalize source)) =
      ⟨d.entries ++ [⟨Node.new (Path.normalize source), []⟩]⟩ :=
    insert_of_fresh fresh
  have last : (d.entries ++ [⟨Node.new (Path.normalize source), []⟩])[d.entries.length]? =
      some ⟨Node.new (Path.normalize source), []⟩ := by
    simp
  rw [addDependency_of_notMem some_source some_target unknown, inserted, size, List.length_append,
    List.length_singleton, Nat.add_sub_cancel, addTarget_eq_set last]
  simpa [FirstSeen.add] using Attaches.fresh unknown

/-- Where the node that is made has the path of another one, that one is replaced. -/
theorem not_attaches_of_mem (unknown : Path.normalize source ∉ pathsOf d.entries)
    (taken : Path.normalize (Path.normalize source) ∈ pathsOf d.entries) :
    ¬d.Attaches (Path.normalize source) (Path.normalize target)
      (d.addDependency source target) := by
  intro attaches
  have paths := pathsOf_addDependency_of_notMem some_source some_target unknown
  rw [FirstSeen.add, if_pos taken] at paths
  have same : (d.addDependency source target).size = d.size := by
    simpa [pathsOf, size] using congrArg List.length paths
  have grown := attaches.size_eq
  rw [if_neg unknown] at grown
  omega

end Named

/-- A dependency is attached to one node and touches nothing else, unless its source has no node and
the node that is made for it has the path of another one. It is found under its source when the
source had a node or the node that is made for it has its path. -/
theorem addDependency_attaches_iff (d : Draft) (source target : String)
    (some_source : Path.normalize source ≠ "") (some_target : Path.normalize target ≠ "") :
    let path := Path.normalize source
    let grown := d.addDependency source target
    (d.Attaches path (Path.normalize target) grown ↔
        path ∈ pathsOf d.entries ∨ Path.normalize path ∉ pathsOf d.entries) ∧
      (Path.normalize target ∈ targetsOf grown.entries path ↔
        path ∈ pathsOf d.entries ∨ Path.normalize path = path) := by
  intro path grown
  by_cases known : path ∈ pathsOf d.entries
  · exact ⟨iff_of_true (attaches_of_mem some_source some_target known) (.inl known),
      iff_of_true (mem_targetsOf_addDependency some_source some_target (.inl known)) (.inl known)⟩
  · simp only [known, false_or]
    constructor
    · refine ⟨fun attached taken => ?_, attaches_of_notMem some_source some_target known⟩
      exact not_attaches_of_mem some_source some_target known taken attached
    · refine ⟨fun listed => ?_, fun fixed =>
        mem_targetsOf_addDependency some_source some_target (.inr fixed)⟩
      by_contra unstable
      rw [targetsOf_addDependency_of_notMem some_source some_target known unstable] at listed
      cases listed

/-- A file is found under another spelling of its path. -/
theorem addDependency_attaches_iff_of_other_spelling :
    let d := ofOperations [.insert (.ofChange (.deleted "src/a.ts")), .addDependency "b.ts" "c.ts"]
    let grown := d.addDependency "./src/lib/../a.ts" "b.ts"
    ("src/a.ts" ≠ "" ∧ "b.ts" ≠ "") ∧
      d.Attaches "src/a.ts" "b.ts" grown ∧ "b.ts" ∈ targetsOf grown.entries "src/a.ts" := by
  intro d grown
  have source : Path.normalize "./src/lib/../a.ts" = "src/a.ts" := by decide
  have target : Path.normalize "b.ts" = "b.ts" := by decide
  have known : "src/a.ts" ∈ pathsOf d.entries := by decide
  have attaches_iff := addDependency_attaches_iff d "./src/lib/../a.ts" "b.ts"
    (by rw [source]; decide) (by rw [target]; decide)
  rw [source, target] at attaches_iff
  exact ⟨⟨by decide, by decide⟩, attaches_iff.1.mpr (.inl known), attaches_iff.2.mpr (.inl known)⟩

/-- The normal form of a source with blank segments is not normal, and the node that is made for it
is taken for one that is there. This node loses the risk of its deletion, and the target goes to the
node behind it. -/
theorem addDependency_misplaced_of_blank_segments :
    let a := Node.ofChange (.deleted "./ ./ a.ts")
    let b := Node.new "b.ts"
    let d := ofOperations [.insert a, .insert b]
    let grown := d.addDependency "./ ./ a.ts" "c.ts"
    (Path.normalize "./ ./ a.ts" = " ./ a.ts" ∧ Path.normalize "c.ts" = "c.ts") ∧
      d.entries = [⟨a, []⟩, ⟨b, []⟩] ∧ a.risk = .medium ∧
      grown.entries = [⟨{ a with risk := .low }, []⟩, ⟨b, ["c.ts"]⟩] ∧
      ¬d.Attaches " ./ a.ts" "c.ts" grown := by
  intro a b d grown
  have source : Path.normalize "./ ./ a.ts" = " ./ a.ts" := by decide
  have target : Path.normalize "c.ts" = "c.ts" := by decide
  refine ⟨⟨source, target⟩, by decide, by decide +kernel, by decide +kernel, ?_⟩
  have unknown : " ./ a.ts" ∉ pathsOf d.entries := by decide
  have taken : Path.normalize " ./ a.ts" ∈ pathsOf d.entries := by decide
  have misplaced : ¬d.Attaches (Path.normalize "./ ./ a.ts") (Path.normalize "c.ts") grown :=
    not_attaches_of_mem (by rw [source]; decide) (by rw [target]; decide)
      (by rw [source]; exact unknown) (by rw [source]; exact taken)
  rwa [source, target] at misplaced

end Draft

end CommitSplit.Graph
