import CommitSplit.FirstSeen

/-!
# Linked blocks

Items that are joined by links, directly or by way of others, make one block. Every item carries the
label of its block; a link gives the items of its second block the label of the first.
-/

namespace CommitSplit.Digraph

/-- Joins the blocks of two items. -/
def joinLabels (labels : List Nat) (link : Nat × Nat) : List Nat :=
  match labels[link.1]?, labels[link.2]? with
  | some kept, some dropped => labels.map fun label => if label = dropped then kept else label
  | _, _ => labels

/-- The labels of `size` items after all links. -/
def linkLabels (size : Nat) (links : List (Nat × Nat)) : List Nat :=
  links.foldl joinLabels (List.range size)

/-- The items by block: blocks in the order of their first items, items in their own order. -/
def blocks (items : List α) (links : List (Nat × Nat)) : List (List α) :=
  let labels := linkLabels items.length links
  (FirstSeen.of labels).map fun label =>
    ((items.zip labels).filter fun item => item.2 = label).map Prod.fst

end CommitSplit.Digraph
