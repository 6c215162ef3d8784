import CommitSplit.Proofs.Text.Blank

/-!
# Lines

A text is read line by line from the front. A line ends with a line feed, perhaps with a carriage
return in front of it. What ends a line is no part of it, as long as the line itself has no carriage
return at its end.
-/

namespace CommitSplit.Text

variable {separator : Char} {ending line rest : List Char}

theorem splitOn_append_cons (apart : separator ∉ line) (rest : List Char) :
    splitOn separator (line ++ separator :: rest) = line :: splitOn separator rest := by
  refine List.splitOnP_append_cons_of_forall_mem (fun c there => ?_) separator (by simp) rest
  exact decide_eq_false (ne_of_mem_of_not_mem there apart)

theorem splitOn_eq_singleton (apart : separator ∉ line) : splitOn separator line = [line] :=
  List.splitOnP_eq_singleton fun _ there => decide_eq_false (ne_of_mem_of_not_mem there apart)

/-- What ends a line. -/
inductive IsLineEnd : List Char → Prop
  | feed : IsLineEnd ['\n']
  | returnFeed : IsLineEnd ['\r', '\n']

/-- The lines of a text given by its characters. -/
def lineChars (cs : List Char) : List (List Char) :=
  linesOfPieces (splitOn '\n' cs)

theorem lines_eq (s : String) : lines s = (lineChars s.toList).map String.ofList := rfl

theorem lineChars_append_cons (apart : '\n' ∉ line) (rest : List Char) :
    lineChars (line ++ '\n' :: rest) = dropReturn line :: lineChars rest := by
  obtain ⟨piece, pieces, split⟩ := List.exists_cons_of_ne_nil (splitOn_ne_nil '\n' rest)
  rw [lineChars, lineChars, splitOn_append_cons apart, split]
  rfl

theorem dropReturn_append_return (line : List Char) : dropReturn (line ++ ['\r']) = line := by
  rw [dropReturn, if_pos (by simp), List.dropLast_concat]

theorem dropReturn_sublist (line : List Char) : (dropReturn line).Sublist line := by
  unfold dropReturn
  split
  · exact List.dropLast_sublist line
  · exact .refl line

/-- The first line of a text is what stands in front of its line end, but a carriage return at its
own end may be taken for a part of that. -/
theorem IsLineEnd.lineChars_append (ends : IsLineEnd ending) (apart : '\n' ∉ line)
    (rest : List Char) :
    ∃ first, (first = line ∨ first = dropReturn line) ∧
      lineChars (line ++ ending ++ rest) = first :: lineChars rest := by
  cases ends with
  | feed =>
      refine ⟨dropReturn line, .inr rfl, ?_⟩
      rw [List.append_assoc, List.singleton_append, lineChars_append_cons apart]
  | returnFeed =>
      have apart : '\n' ∉ line ++ ['\r'] := by simp [apart]
      have spelled : line ++ ['\r', '\n'] ++ rest = line ++ ['\r'] ++ '\n' :: rest := by simp
      refine ⟨line, .inl rfl, ?_⟩
      rw [spelled, lineChars_append_cons apart, dropReturn_append_return]

/-- The last line needs no end. -/
theorem lineChars_of_notMem (apart : '\n' ∉ line) :
    lineChars line = if line = [] then [] else [line] := by
  rw [lineChars, splitOn_eq_singleton apart, linesOfPieces]

end CommitSplit.Text
