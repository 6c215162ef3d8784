import CommitSplit.Proofs.Text.Pattern

/-!
# Preferred matches

The match at a cursor is the preferred one, and it is put together from the preferred matches of the
parts as long as every part can go on from the one in front of it. A greedy repetition goes on while
its body matches; so a repeated character takes in all characters of its kind.
-/

namespace CommitSplit.Text.Pattern

variable {p q : Pattern} {c d e : Cursor} {u rest : List Char} {accepts : Char → Bool}
  {greedy : Bool}

theorem match?_eq_none_iff : p.match? c = none ↔ p.run c = [] :=
  List.head?_eq_none_iff

/-- What matches in one way only is matched in this way. -/
theorem match?_of_forall_eq (matched : p.run c ≠ []) (only : ∀ e ∈ p.run c, e = d) :
    p.match? c = some d := by
  obtain ⟨e, es, all⟩ := List.exists_cons_of_ne_nil matched
  rw [match?, all, List.head?_cons, only e (by rw [all]; exact List.mem_cons_self)]

theorem match?_seq (first : p.match? c = some e) (second : q.match? e = some d) :
    (seq p q).match? c = some d := by
  obtain ⟨es, all⟩ := List.head?_eq_some_iff.mp first
  obtain ⟨ds, all'⟩ := List.head?_eq_some_iff.mp second
  rw [match?, run, all, List.flatMap_cons, all', List.cons_append, List.head?_cons]

theorem match?_left (first : p.match? c = some d) : (alt p q).match? c = some d := by
  obtain ⟨ds, all⟩ := List.head?_eq_some_iff.mp first
  rw [match?, run, all, List.cons_append, List.head?_cons]

theorem match?_right (nothing : p.run c = []) : (alt p q).match? c = q.match? c := by
  rw [match?, run, nothing, List.nil_append, match?]

theorem match?_group {number : Nat} (matched : p.match? c = some (c.past u))
    (text : c.rest = u ++ rest) :
    (group number p).match? c =
      some { c.past u with captures := (number, ⟨c.offset, u⟩) :: c.captures } := by
  obtain ⟨ds, all⟩ := List.head?_eq_some_iff.mp matched
  have taken : c.rest.take ((c.past u).offset - c.offset) = u := by
    rw [text, Cursor.offset_past, Nat.add_sub_cancel_left, List.take_left]
  rw [match?, run, all, List.map_cons, List.head?_cons, taken]
  rfl

theorem match?_text {s : String} (text : c.rest = s.toList ++ rest) :
    (Pattern.text s).match? c = some (c.past s.toList) :=
  match?_of_forall_eq (List.ne_nil_of_mem (Passes.text s c rest text))
    fun _ there => (mem_run_text there).2

/-! ## Repetitions -/

/-- Enough rounds are as good as more of them. -/
theorem iterate_congr {rounds rounds' : Nat} (enough : c.rest.length ≤ rounds)
    (enough' : c.rest.length ≤ rounds') :
    iterate p.run greedy rounds c = iterate p.run greedy rounds' c := by
  -- A round consumes something, so none is possible at the end of the text.
  have shorter {c d : Cursor} (there : d ∈ (p.run c).filter fun e => c.offset < e.offset) :
      d.rest.length < c.rest.length := by
    obtain ⟨round, further⟩ := List.mem_filter.mp there
    obtain ⟨u, text, offset⟩ := relates_advances p c d round
    rw [text, List.length_append]
    have := of_decide_eq_true further
    omega
  have at_end {c : Cursor} (nothing : c.rest.length = 0) (rounds : Nat) :
      iterate p.run greedy rounds c = [c] := by
    cases rounds with
    | zero => rfl
    | succ rounds =>
        have none_further : (p.run c).filter (fun e => c.offset < e.offset) = [] := by
          rw [List.eq_nil_iff_forall_not_mem]
          intro d there
          have := shorter there
          omega
        rw [iterate, none_further]
        cases greedy <;> rfl
  induction rounds generalizing c rounds' with
  | zero => rw [at_end (Nat.le_zero.mp enough) 0, at_end (Nat.le_zero.mp enough) rounds']
  | succ rounds ih =>
      cases rounds' with
      | zero => rw [at_end (Nat.le_zero.mp enough') _, at_end (Nat.le_zero.mp enough') _]
      | succ rounds' =>
          have longer : ((p.run c).filter fun e => c.offset < e.offset).flatMap
              (iterate p.run greedy rounds) =
              ((p.run c).filter fun e => c.offset < e.offset).flatMap
                (iterate p.run greedy rounds') := by
            refine List.flatMap_congr fun d there => ?_
            have := shorter there
            exact ih (by omega) (by omega)
          rw [iterate, iterate, longer]

/-- A greedy repetition goes on behind a round. -/
theorem match?_star_step (round : p.match? c = some e) (further : c.offset < e.offset) :
    (star true p).match? c = (star true p).match? e := by
  obtain ⟨es, all⟩ := List.head?_eq_some_iff.mp round
  obtain ⟨u, text, offset⟩ := relates_advances p c e (mem_run_of_match? round)
  obtain ⟨rounds, enough⟩ : ∃ rounds, c.rest.length = rounds + 1 := by
    refine ⟨c.rest.length - 1, ?_⟩
    rw [text, List.length_append]
    omega
  have fewer : e.rest.length ≤ rounds := by
    rw [text, List.length_append] at enough
    omega
  have some_end : iterate p.run true rounds e ≠ [] := by
    cases rounds <;> simp [iterate]
  obtain ⟨d, ds, ends⟩ := List.exists_cons_of_ne_nil some_end
  have ends' : iterate p.run true e.rest.length e = d :: ds := by
    rw [← ends]
    exact iterate_congr (Nat.le_refl _) fewer
  have rounds_first : ((p.run c).filter fun d => c.offset < d.offset) =
      e :: es.filter fun d => c.offset < d.offset := by
    rw [all, List.filter_cons_of_pos (by simpa using further)]
  rw [match?, match?, run, run, ends', enough, iterate, rounds_first, List.flatMap_cons, ends]
  rfl

/-- It ends where there is no round. -/
theorem match?_star_stop (nothing : p.run c = []) : (star true p).match? c = some c := by
  rw [match?, run]
  cases c.rest.length with
  | zero => rfl
  | succ rounds =>
      rw [iterate, nothing]
      rfl

/-- A greedy repetition of a character takes in all characters of its kind, and what it could do
instead is to stop in front of one of them. -/
theorem run_star_one (accepts : Char → Bool) (c : Cursor) :
    ∃ earlier, (star true (one accepts)).run c = c.past (c.rest.takeWhile accepts) :: earlier ∧
      ∀ e ∈ earlier, ∃ x rest, e.rest = x :: rest ∧ accepts x = true := by
  rw [run]
  generalize rounds_eq : c.rest.length = rounds
  replace rounds_eq := Nat.le_of_eq rounds_eq
  induction rounds generalizing c with
  | zero =>
      have nothing : c.rest = [] := List.eq_nil_of_length_eq_zero (Nat.le_zero.mp rounds_eq)
      exact ⟨[], by simp [iterate, nothing], List.forall_mem_nil _⟩
  | succ rounds ih =>
      cases text : c.rest with
      | nil => exact ⟨[], by simp [iterate, run, text], List.forall_mem_nil _⟩
      | cons x rest =>
          by_cases accepted : accepts x = true
          · have behind : (c.past [x]).rest = rest := Cursor.rest_past (u := [x]) text
            have fewer : (c.past [x]).rest.length ≤ rounds := by
              rw [behind]
              rw [text, List.length_cons] at rounds_eq
              omega
            obtain ⟨earlier, ends, stops⟩ := ih (c.past [x]) fewer
            rw [behind, Cursor.past_past, List.singleton_append] at ends
            have round : ((one accepts).run c).filter (fun e => c.offset < e.offset) =
                [c.past [x]] := by
              simp [run, text, accepted, Cursor.next?_eq text]
            refine ⟨earlier ++ [c], ?_, List.forall_mem_append.mpr ⟨stops, ?_⟩⟩
            · rw [iterate, round, List.flatMap_singleton, ends,
                List.takeWhile_cons_of_pos accepted]
              rfl
            · exact List.forall_mem_singleton.mpr ⟨x, rest, text, accepted⟩
          · refine ⟨[], ?_, List.forall_mem_nil _⟩
            simp [iterate, run, text, accepted]

theorem match?_star_one (text : c.rest = u ++ rest) (accepted : ∀ x ∈ u, accepts x = true)
    (stops : ∀ x ∈ rest.head?, accepts x = false) :
    (star true (one accepts)).match? c = some (c.past u) := by
  obtain ⟨earlier, ends, -⟩ := run_star_one accepts c
  have taken : c.rest.takeWhile accepts = u := by
    rw [text, List.takeWhile_append_of_pos accepted]
    cases rest with
    | nil => simp
    | cons x rest => simp [stops x rfl]
  rw [match?, ends, taken, List.head?_cons]

theorem match?_plus (text : c.rest = u ++ rest) (some_char : u ≠ [])
    (accepted : ∀ x ∈ u, accepts x = true) (stops : ∀ x ∈ rest.head?, accepts x = false) :
    (seq (one accepts) (star true (one accepts))).match? c = some (c.past u) := by
  obtain ⟨x, u, rfl⟩ := List.exists_cons_of_ne_nil some_char
  have here : accepts x = true := accepted x List.mem_cons_self
  have first : (one accepts).match? c = some (c.past [x]) := by
    rw [match?, run, text, Cursor.next?_eq text]
    simp [here]
  have behind : (c.past [x]).rest = u ++ rest := Cursor.rest_past (u := [x]) text
  rw [match?_seq first (match?_star_one behind
    (fun y there => accepted y (List.mem_cons_of_mem x there)) stops), Cursor.past_past]
  rfl

end CommitSplit.Text.Pattern
