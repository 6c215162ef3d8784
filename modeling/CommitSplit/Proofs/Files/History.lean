import CommitSplit.Files.History
import CommitSplit.Proofs.Attempt

/-!
# Files of a revision

Seen from its top, a revision holds at a path the file to which the path leads in the tree of the
revision. A path that leaves the tree on its way does not come back to a file.
-/

namespace CommitSplit.FileTree

variable {tree : FileTree} {place next : Place} {here here' : List String} {name : String}
  {names : List String} {path : String} {bytes : List UInt8}

/-- What one segment of a walk can do. -/
inductive Steps : Place → String → Place → Prop
  | stay {place : Place} {name : String} : name = "" ∨ name = "." → Steps place name place
  | up {place : Place} : Steps place ".." (up place)
  | down {here : List String} {name : String} : ¬(name = "" ∨ name = ".") → name ≠ ".." →
      Steps (.inside here) name (.inside (here ++ [name]))

theorem steps_of_walkSegment (step : tree.walkSegment place name = .ok next) :
    Steps place name next := by
  unfold walkSegment at step
  split at step
  · cases step
  · split at step
    · rename_i dot
      cases step
      exact .stay (by simpa using dot)
    · rename_i named
      split at step
      · rename_i climbs
        cases step
        exact climbs ▸ .up
      · rename_i plain
        unfold down at step
        split at step
        · cases step
        · cases place with
          | above levels => cases step
          | top => cases step
          | inside here =>
              dsimp only at step
              split at step
              · cases step
              · cases step
                exact .down (by simpa using named) plain

/-- Above the tree a walk meets nothing that has a name. -/
theorem Steps.not_inside (h : Steps place name next) (outside : ∀ here, place ≠ .inside here)
    (here : List String) : next ≠ .inside here := by
  cases h with
  | stay _ => exact outside here
  | up =>
      cases place with
      | inside here => exact absurd rfl (outside here)
      | above levels => nofun
      | top => nofun
  | @down before name _ _ => exact absurd rfl (outside before)

theorem not_inside_of_walk (walked : names.foldlM tree.walkSegment place = .ok next)
    (outside : ∀ here, place ≠ .inside here) (here : List String) : next ≠ .inside here := by
  induction names generalizing place with
  | nil =>
      cases walked
      exact outside here
  | cons name names ih =>
      rw [List.foldlM_cons] at walked
      obtain ⟨middle, step, rest⟩ := Attempt.bind_eq_ok_iff.mp walked
      exact ih rest ((steps_of_walkSegment step).not_inside outside)

/-- A walk that ends in the tree never leaves it. -/
theorem foldl_goTo_of_walk
    (walked : names.foldlM tree.walkSegment (.inside here) = .ok (.inside here')) :
    names.foldl goTo (some here) = some here' := by
  induction names generalizing here with
  | nil =>
      cases walked
      rfl
  | cons name names ih =>
      rw [List.foldlM_cons] at walked
      obtain ⟨middle, step, rest⟩ := Attempt.bind_eq_ok_iff.mp walked
      rw [List.foldl_cons]
      cases steps_of_walkSegment step with
      | stay dot => simpa [goTo, dot] using ih rest
      | down named plain => simpa [goTo, named, plain] using ih rest
      | up =>
          rcases eq_or_ne here [] with rfl | some_segment
          · exact absurd rfl (not_inside_of_walk rest (by nofun) here')
          · rw [up, if_neg some_segment] at rest
            simpa [goTo, some_segment] using ih rest

/-- A file of the tree is what the revision holds at its path, seen from the top. -/
theorem contentFrom_of_files (held : tree.files path = .file bytes) :
    tree.contentFrom [] path = some bytes := by
  obtain ⟨place, walked, status⟩ : ∃ place, tree.walk path = .ok place ∧
      tree.statusAt place = .file bytes := by
    unfold files at held
    split at held
    · exact ⟨_, ‹_›, held⟩
    · cases held
  obtain ⟨here, rfl⟩ : ∃ here, place = .inside here := by
    cases place with
    | inside here => exact ⟨here, rfl⟩
    | above levels => cases status
    | top => cases status
  have steps : (segments path).foldlM tree.walkSegment
      (if Path.isAbsolute path then Place.top else Place.inside []) = .ok (.inside here) := by
    unfold walk at walked
    split at walked
    · cases walked
    · split at walked
      · cases walked
      · split at walked
        · cases walked
        · exact walked
  cases absolute : Path.isAbsolute path with
  | true =>
      rw [absolute, if_pos rfl] at steps
      exact absurd rfl (not_inside_of_walk steps (by nofun) here)
  | false =>
      rw [absolute, if_neg Bool.false_ne_true] at steps
      rw [contentFrom]
      simp only [absolute, Bool.false_eq_true, if_false, ite_self, foldl_goTo_of_walk steps,
        Option.bind_some, status]

end CommitSplit.FileTree
