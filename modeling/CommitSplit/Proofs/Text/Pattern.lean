import CommitSplit.Text.Pattern
import Mathlib.Data.List.Basic

/-!
# Matches of patterns

A pattern takes a cursor to the cursors behind its matches. What holds between the two ends of every
match follows from the parts of the pattern, as long as it can be chained. That a text is matched
follows in the same way: what its pieces pass, the whole text passes.
-/

namespace CommitSplit.Text

/-- The first element of some kind splits a list in one way only. -/
theorem eq_of_append_cons_eq {α : Type} (holds : α → Prop) {u u' v v' : List α} {x x' : α}
    (none_before : ∀ y ∈ u, ¬holds y) (none_before' : ∀ y ∈ u', ¬holds y) (here : holds x)
    (here' : holds x') (same : u ++ x :: v = u' ++ x' :: v') : u = u' ∧ x = x' ∧ v = v' := by
  induction u generalizing u' with
  | nil =>
      cases u' with
      | nil => simpa using same
      | cons y u' =>
          rw [(List.cons.inj same).1] at here
          exact absurd here (none_before' y List.mem_cons_self)
  | cons y u ih =>
      cases u' with
      | nil =>
          rw [← (List.cons.inj same).1] at here'
          exact absurd here' (none_before y List.mem_cons_self)
      | cons y' u' =>
          obtain ⟨rfl, rest⟩ := List.cons.inj same
          obtain ⟨rfl, rfl, rfl⟩ := ih (List.forall_mem_cons.mp none_before).2
            (List.forall_mem_cons.mp none_before').2 rest
          exact ⟨rfl, rfl, rfl⟩

namespace Cursor

variable {c d : Cursor} {u v rest : List Char}

/-- The cursor behind a text that stands at it. -/
def past (c : Cursor) (u : List Char) : Cursor :=
  { c with
    offset := c.offset + u.length
    before := u.getLast?.or c.before
    rest := c.rest.drop u.length }

@[simp] theorem past_nil (c : Cursor) : c.past [] = c := by
  simp [past]

theorem past_past (c : Cursor) (u v : List Char) : (c.past u).past v = c.past (u ++ v) := by
  simp [past, List.getLast?_append, Option.or_assoc, Nat.add_assoc, List.drop_drop]

@[simp] theorem offset_past (c : Cursor) (u : List Char) :
    (c.past u).offset = c.offset + u.length := rfl

@[simp] theorem captures_past (c : Cursor) (u : List Char) : (c.past u).captures = c.captures := rfl

theorem rest_past (stands : c.rest = u ++ rest) : (c.past u).rest = rest := by
  simp [past, stands]

theorem before_past_append_singleton (c : Cursor) (u : List Char) (x : Char) :
    (c.past (u ++ [x])).before = some x := by
  simp [past]

theorem next?_eq {x : Char} (stands : c.rest = x :: rest) : c.next? = some (c.past [x]) := by
  simp [next?, past, stands]

end Cursor

namespace Pattern

variable {p q : Pattern} {ps : List Pattern} {c d : Cursor} {u v rest : List Char}
  {accepts : Char → Bool} {greedy : Bool}

/-! ## What holds between the ends of a match -/

theorem mem_run_one (h : d ∈ (one accepts).run c) :
    ∃ x rest, c.rest = x :: rest ∧ accepts x = true ∧ d = c.past [x] := by
  rw [run] at h
  split at h
  · cases text : c.rest with
    | nil => simp_all
    | cons x rest =>
        rw [Cursor.next?_eq text] at h
        exact ⟨x, rest, rfl, by simp_all, by simpa using h⟩
  · cases h

theorem mem_run_seq : d ∈ (seq p q).run c ↔ ∃ e ∈ p.run c, d ∈ q.run e := by
  rw [run, List.mem_flatMap]

theorem mem_run_alt : d ∈ (alt p q).run c ↔ d ∈ p.run c ∨ d ∈ q.run c := by
  rw [run, List.mem_append]

theorem run_sequence_cons (p : Pattern) (some_pattern : ps ≠ []) :
    sequence (p :: ps) = seq p (sequence ps) := by
  cases ps with
  | nil => exact absurd rfl some_pattern
  | cons _ _ => rfl

/-- A relation between the ends of all matches. -/
def Relates (R : Cursor → Cursor → Prop) (p : Pattern) : Prop :=
  ∀ c d, d ∈ p.run c → R c d

namespace Relates

variable {R : Cursor → Cursor → Prop}

theorem iterate (refl : ∀ c, R c c) (trans : ∀ a b c, R a b → R b c → R a c)
    (body : Relates R p) {rounds : Nat} (h : d ∈ iterate p.run greedy rounds c) : R c d := by
  induction rounds generalizing c with
  | zero =>
      rw [List.mem_singleton.mp h]
      exact refl c
  | succ rounds ih =>
      have longer : d ∈ ((p.run c).filter fun e => c.offset < e.offset).flatMap
          (Pattern.iterate p.run greedy rounds) → R c d := by
        intro there
        obtain ⟨e, round, rest⟩ := List.mem_flatMap.mp there
        exact trans _ _ _ (body c e (List.mem_filter.mp round).1) (ih rest)
      rw [Pattern.iterate] at h
      cases greedy with
      | true =>
          rcases List.mem_append.mp h with there | here
          · exact longer there
          · rw [List.mem_singleton.mp here]
            exact refl c
      | false =>
          rcases List.mem_cons.mp h with rfl | there
          · exact refl d
          · exact longer there

section Rules

variable (refl : ∀ c, R c c)

include refl

protected theorem empty : Relates R empty := by
  intro c d h
  rw [List.mem_singleton.mp h]
  exact refl c

protected theorem lineStart : Relates R lineStart := by
  intro c d h
  rw [run] at h
  split at h
  · rw [List.mem_singleton.mp h]
    exact refl c
  · cases h

protected theorem wordBoundary : Relates R wordBoundary := by
  intro c d h
  rw [run] at h
  split at h
  · rw [List.mem_singleton.mp h]
    exact refl c
  · cases h

variable (trans : ∀ a b c, R a b → R b c → R a c)

include trans

omit refl in
protected theorem seq (first : Relates R p) (second : Relates R q) : Relates R (seq p q) := by
  intro c d h
  obtain ⟨e, he, hd⟩ := mem_run_seq.mp h
  exact trans _ _ _ (first c e he) (second e d hd)

protected theorem star (body : Relates R p) : Relates R (star greedy p) :=
  fun _ _ h => iterate refl trans body h

protected theorem sequence (each : ∀ p ∈ ps, Relates R p) : Relates R (sequence ps) := by
  induction ps with
  | nil => exact Relates.empty refl
  | cons p ps ih =>
      obtain ⟨first, each⟩ := List.forall_mem_cons.mp each
      rcases eq_or_ne ps [] with rfl | more
      · exact first
      · rw [run_sequence_cons p more]
        exact Relates.seq trans first (ih each)

end Rules

protected theorem alt (first : Relates R p) (second : Relates R q) : Relates R (alt p q) :=
  fun c d h => (mem_run_alt.mp h).elim (first c d) (second c d)

end Relates

/-- A cursor further on in the same text. -/
def Advances (c d : Cursor) : Prop :=
  ∃ u, c.rest = u ++ d.rest ∧ d.offset = c.offset + u.length

theorem Advances.refl (c : Cursor) : Advances c c :=
  ⟨[], rfl, rfl⟩

theorem Advances.trans {a b c : Cursor} (h : Advances a b) (h' : Advances b c) : Advances a c := by
  obtain ⟨u, text, offset⟩ := h
  obtain ⟨v, text', offset'⟩ := h'
  exact ⟨u ++ v, by simp [text, text'], by simp [offset, offset', Nat.add_assoc]⟩

/-- Every match goes on in the text. -/
theorem relates_advances (p : Pattern) : Relates Advances p := by
  induction p with
  | empty => exact .empty .refl
  | lineStart => exact .lineStart .refl
  | wordBoundary => exact .wordBoundary .refl
  | seq _ _ first second => exact .seq (fun _ _ _ => .trans) first second
  | alt _ _ first second => exact .alt first second
  | star _ _ body => exact .star .refl (fun _ _ _ => .trans) body
  | one accepts =>
      intro c d h
      obtain ⟨x, rest, text, -, rfl⟩ := mem_run_one h
      have behind : (c.past [x]).rest = rest := Cursor.rest_past (u := [x]) text
      exact ⟨[x], by rw [behind, text, List.singleton_append], rfl⟩
  | group number body ih =>
      intro c d h
      obtain ⟨e, he, rfl⟩ := List.mem_map.mp h
      exact ih c e he

/-- A pattern that captures nothing. -/
def isPlain : Pattern → Bool
  | empty | lineStart | wordBoundary | one _ => true
  | seq p q | alt p q => p.isPlain && q.isPlain
  | star _ p => p.isPlain
  | group _ _ => false

/-- A cursor behind a text that stands at another one. -/
def Passed (c d : Cursor) : Prop :=
  ∃ u, c.rest = u ++ d.rest ∧ d = c.past u

theorem Passed.refl (c : Cursor) : Passed c c :=
  ⟨[], rfl, (Cursor.past_nil c).symm⟩

theorem Passed.trans {a b c : Cursor} (h : Passed a b) (h' : Passed b c) : Passed a c := by
  obtain ⟨u, text, rfl⟩ := h
  obtain ⟨v, text', rfl⟩ := h'
  exact ⟨u ++ v, by rw [text, text', List.append_assoc], Cursor.past_past a u v⟩

/-- A match without captures is told by the text that it goes on over. -/
theorem relates_passed (plain : p.isPlain = true) : Relates Passed p := by
  induction p with
  | empty => exact .empty .refl
  | lineStart => exact .lineStart .refl
  | wordBoundary => exact .wordBoundary .refl
  | seq _ _ first second =>
      obtain ⟨plain_first, plain_second⟩ := Bool.and_eq_true_iff.mp plain
      exact .seq (fun _ _ _ => .trans) (first plain_first) (second plain_second)
  | alt _ _ first second =>
      obtain ⟨plain_first, plain_second⟩ := Bool.and_eq_true_iff.mp plain
      exact .alt (first plain_first) (second plain_second)
  | star _ _ body => exact .star .refl (fun _ _ _ => .trans) (body plain)
  | one accepts =>
      intro c d h
      obtain ⟨x, rest, text, -, rfl⟩ := mem_run_one h
      refine ⟨[x], ?_, rfl⟩
      rw [Cursor.rest_past (u := [x]) text, text, List.singleton_append]
  | group _ _ _ => cases plain

theorem captures_of_isPlain (plain : p.isPlain = true) (h : d ∈ p.run c) :
    d.captures = c.captures := by
  obtain ⟨u, -, rfl⟩ := relates_passed plain c d h
  rfl

/-- A repetition goes on over characters that it accepts, and leaves the captures alone. -/
theorem mem_run_star_one (h : d ∈ (star greedy (one accepts)).run c) :
    ∃ u, c.rest = u ++ d.rest ∧ d = c.past u ∧ ∀ x ∈ u, accepts x = true := by
  let Over (c d : Cursor) : Prop := ∃ u, c.rest = u ++ d.rest ∧ d = c.past u ∧
    ∀ x ∈ u, accepts x = true
  have refl (c : Cursor) : Over c c := ⟨[], rfl, (Cursor.past_nil c).symm, nofun⟩
  have trans (a b c : Cursor) : Over a b → Over b c → Over a c := by
    rintro ⟨u, text, rfl, accepted⟩ ⟨v, text', rfl, accepted'⟩
    exact ⟨u ++ v, by rw [text, text', List.append_assoc], Cursor.past_past a u v,
      List.forall_mem_append.mpr ⟨accepted, accepted'⟩⟩
  have body : Relates Over (one accepts) := by
    intro c d h
    obtain ⟨x, rest, text, accepted, rfl⟩ := mem_run_one h
    refine ⟨[x], ?_, rfl, by simpa using accepted⟩
    rw [Cursor.rest_past (u := [x]) text, text, List.singleton_append]
  exact Relates.star refl trans body c d h

theorem mem_run_plus (h : d ∈ (seq (one accepts) (star greedy (one accepts))).run c) :
    ∃ u, u ≠ [] ∧ c.rest = u ++ d.rest ∧ d = c.past u ∧ ∀ x ∈ u, accepts x = true := by
  obtain ⟨e, first, rest⟩ := mem_run_seq.mp h
  obtain ⟨x, behind, text, accepted, rfl⟩ := mem_run_one first
  obtain ⟨u, text', rfl, accepted'⟩ := mem_run_star_one rest
  rw [Cursor.rest_past (u := [x]) text] at text'
  rw [Cursor.past_past, List.singleton_append] at *
  exact ⟨x :: u, List.cons_ne_nil x u, by rw [text, text']; rfl, rfl,
    List.forall_mem_cons.mpr ⟨accepted, accepted'⟩⟩

/-- A literal text is the text that it goes on over. -/
theorem mem_run_text {s : String} (h : d ∈ (text s).run c) :
    c.rest = s.toList ++ d.rest ∧ d = c.past s.toList := by
  rw [text] at h
  generalize s.toList = u at h ⊢
  induction u generalizing c with
  | nil =>
      rw [List.mem_singleton.mp h]
      exact ⟨rfl, (Cursor.past_nil c).symm⟩
  | cons x u ih =>
      have step {e : Cursor} (first : e ∈ (one (· = x)).run c) :
          c.rest = x :: e.rest ∧ e = c.past [x] := by
        obtain ⟨y, rest, text, same, rfl⟩ := mem_run_one first
        obtain rfl : y = x := by simpa using same
        exact ⟨by rw [Cursor.rest_past (u := [y]) text, text], rfl⟩
      rcases eq_or_ne u [] with rfl | more
      · exact step h
      · rw [List.map_cons, run_sequence_cons _ (by simpa using more)] at h
        obtain ⟨e, first, rest⟩ := mem_run_seq.mp h
        obtain ⟨text, rfl⟩ := step first
        obtain ⟨text', rfl⟩ := ih rest
        rw [Cursor.past_past, List.singleton_append] at *
        exact ⟨by rw [text, text']; rfl, rfl⟩

/-- A group captures the text that it goes on over. -/
theorem mem_run_group {number : Nat} (plain : p.isPlain = true)
    (h : d ∈ (group number p).run c) :
    ∃ u, c.rest = u ++ d.rest ∧ c.past u ∈ p.run c ∧
      d = { c.past u with captures := (number, ⟨c.offset, u⟩) :: c.captures } := by
  obtain ⟨e, matched, rfl⟩ := List.mem_map.mp h
  obtain ⟨u, text, rfl⟩ := relates_passed plain c e matched
  have taken : c.rest.take ((c.past u).offset - c.offset) = u := by
    rw [text, Cursor.offset_past, Nat.add_sub_cancel_left, List.take_left]
  exact ⟨u, text, matched, by rw [taken]; rfl⟩

/-! ## Texts that are matched -/

/-- Wherever a text stands, one of the matches ends behind it. -/
def Passes (p : Pattern) (u : List Char) : Prop :=
  ∀ c rest, c.rest = u ++ rest → c.past u ∈ p.run c

namespace Passes

protected theorem empty : Passes empty [] := by
  intro c rest _
  simp [run]

protected theorem one {x : Char} (accepted : accepts x = true) : Passes (one accepts) [x] := by
  intro c rest stands
  rw [run, stands, Cursor.next?_eq stands]
  simp [accepted]

protected theorem seq (first : Passes p u) (second : Passes q v) : Passes (seq p q) (u ++ v) := by
  intro c rest stands
  rw [List.append_assoc] at stands
  rw [← Cursor.past_past]
  exact mem_run_seq.mpr ⟨c.past u, first c _ stands, second _ rest (Cursor.rest_past stands)⟩

protected theorem left (h : Passes p u) : Passes (alt p q) u :=
  fun c rest stands => mem_run_alt.mpr (.inl (h c rest stands))

protected theorem right (h : Passes q u) : Passes (alt p q) u :=
  fun c rest stands => mem_run_alt.mpr (.inr (h c rest stands))

protected theorem skipped : Passes (optional p) [] :=
  .right .empty

theorem mem_iterate (accepted : ∀ x ∈ u, accepts x = true) {rounds : Nat}
    (enough : u.length ≤ rounds) (stands : c.rest = u ++ rest) :
    c.past u ∈ iterate (one accepts).run greedy rounds c := by
  induction u generalizing c rounds with
  | nil =>
      rw [Cursor.past_nil]
      cases rounds with
      | zero => exact List.mem_singleton_self c
      | succ rounds =>
          rw [iterate]
          cases greedy with
          | true => exact List.mem_append_right _ (List.mem_singleton_self c)
          | false => exact List.mem_cons_self
  | cons x u ih =>
      obtain ⟨accepted_first, accepted⟩ := List.forall_mem_cons.mp accepted
      obtain ⟨rounds, rfl⟩ : ∃ more, rounds = more + 1 := ⟨rounds - 1, by grind⟩
      have first : c.past [x] ∈ (one accepts).run c := Passes.one accepted_first c _ stands
      have further : c.past [x] ∈
          ((one accepts).run c).filter fun e => c.offset < e.offset := by
        simp [first]
      have fewer : u.length ≤ rounds := Nat.le_of_succ_le_succ enough
      have longer := List.mem_flatMap.mpr
        ⟨_, further, ih accepted fewer (Cursor.rest_past (u := [x]) stands)⟩
      rw [Cursor.past_past, List.singleton_append] at longer
      rw [iterate]
      cases greedy with
      | true => exact List.mem_append_left _ longer
      | false => exact List.mem_cons_of_mem _ longer

protected theorem star (accepted : ∀ x ∈ u, accepts x = true) :
    Passes (star greedy (one accepts)) u := by
  intro c rest stands
  exact mem_iterate accepted (by simp [stands]) stands

/-- One character, then more of the kind. -/
protected theorem plus {x : Char} (accepted : ∀ y ∈ x :: u, accepts y = true) :
    Passes (seq (one accepts) (star greedy (one accepts))) (x :: u) :=
  Passes.seq (u := [x]) (.one (accepted x List.mem_cons_self))
    (.star fun y there => accepted y (List.mem_cons_of_mem x there))

/-- A text that is given literally. -/
protected theorem text (s : String) : Passes (text s) s.toList := by
  rw [Pattern.text]
  induction s.toList with
  | nil => exact .empty
  | cons x u ih =>
      have first : Passes (one (· = x)) [x] := .one (by simp)
      cases u with
      | nil => exact first
      | cons y u => exact .seq first ih

end Passes

/-- There is a match wherever a text is all that is left. -/
def Meets (p : Pattern) (text : List Char) : Prop :=
  ∀ c, c.rest = text → p.run c ≠ []

theorem Passes.meets (h : Passes p u) (behind : Meets q rest) : Meets (seq p q) (u ++ rest) := by
  intro c stands
  obtain ⟨d, hd⟩ := List.exists_mem_of_ne_nil _ (behind _ (Cursor.rest_past stands))
  exact List.ne_nil_of_mem (mem_run_seq.mpr ⟨c.past u, h c rest stands, hd⟩)

/-! ## Searching -/

/-- All matches from a cursor on. -/
def found (p : Pattern) (c : Cursor) : List Cursor :=
  p.findFrom (c.rest.length + 1) c

theorem mem_run_of_match? (h : p.match? c = some d) : d ∈ p.run c :=
  List.mem_of_head? h

/-- A search that has enough steps does not depend on how many they are. -/
theorem findFrom_congr {steps steps' : Nat} (enough : c.rest.length < steps)
    (enough' : c.rest.length < steps') : p.findFrom steps c = p.findFrom steps' c := by
  induction steps generalizing c steps' with
  | zero => exact absurd enough (Nat.not_lt_zero _)
  | succ steps ih =>
      obtain ⟨steps', rfl⟩ : ∃ fewer, steps' = fewer + 1 := ⟨steps' - 1, by grind⟩
      have onward : (c.next?.map (p.findFrom steps)) = (c.next?.map (p.findFrom steps')) := by
        cases text : c.rest with
        | nil => simp [Cursor.next?, text]
        | cons x rest =>
            have shorter : (c.past [x]).rest.length < c.rest.length := by
              rw [Cursor.rest_past (u := [x]) text, text]
              simp
            have inner : p.findFrom steps (c.past [x]) = p.findFrom steps' (c.past [x]) :=
              ih (by omega) (by omega)
            rw [Cursor.next?_eq text, Option.map_some, Option.map_some, inner]
      rw [findFrom, findFrom]
      cases matched : p.match? c with
      | none => simp only [onward]
      | some d =>
          dsimp only
          split
          · rename_i longer
            obtain ⟨u, text, offset⟩ := relates_advances p c d (mem_run_of_match? matched)
            have shorter : d.rest.length < c.rest.length := by
              rw [text, List.length_append]
              omega
            have inner : p.findFrom steps { d with captures := [] } =
                p.findFrom steps' { d with captures := [] } :=
              ih (by dsimp only; omega) (by dsimp only; omega)
            rw [inner]
          · rw [onward]

/-- What a match keeps, and what does not depend on captures, holds of all that a search finds. -/
theorem findFrom_induction {holds : Cursor → Prop}
    (matched : ∀ c d, holds c → d ∈ p.run c → holds d)
    (reset : ∀ d, holds d → holds { d with captures := [] })
    (next : ∀ c d, holds c → c.next? = some d → holds d) {steps : Nat} (h : holds c)
    (there : d ∈ p.findFrom steps c) : holds d := by
  induction steps generalizing c with
  | zero => cases there
  | succ steps ih =>
      have onward (there : d ∈ (c.next?.map (p.findFrom steps)).getD []) : holds d := by
        cases text : c.next? with
        | none => simp [text] at there
        | some e =>
            rw [text, Option.map_some, Option.getD_some] at there
            exact ih (next c e h text) there
      rw [findFrom] at there
      cases preferred : p.match? c with
      | none =>
          rw [preferred] at there
          exact onward there
      | some e =>
          have behind := matched c e h (mem_run_of_match? preferred)
          rw [preferred] at there
          dsimp only at there
          split at there
          · rcases List.mem_cons.mp there with rfl | there
            · exact behind
            · exact ih (reset e behind) there
          · rcases List.mem_cons.mp there with rfl | there
            · exact behind
            · exact onward there

/-- What a search finds are matches. -/
theorem exists_mem_run_of_mem_findFrom {steps : Nat} (bare : c.captures = [])
    (there : d ∈ p.findFrom steps c) : ∃ e, e.captures = [] ∧ d ∈ p.run e := by
  induction steps generalizing c with
  | zero => cases there
  | succ steps ih =>
      have onward (there : d ∈ (c.next?.map (p.findFrom steps)).getD []) :
          ∃ e, e.captures = [] ∧ d ∈ p.run e := by
        cases text : c.rest with
        | nil => simp [Cursor.next?, text] at there
        | cons x rest =>
            rw [Cursor.next?_eq text, Option.map_some, Option.getD_some] at there
            exact ih (c := c.past [x]) bare there
      rw [findFrom] at there
      cases preferred : p.match? c with
      | none =>
          rw [preferred] at there
          exact onward there
      | some e =>
          have here (same : d = e) : ∃ e, e.captures = [] ∧ d ∈ p.run e :=
            ⟨c, bare, same ▸ mem_run_of_match? preferred⟩
          rw [preferred] at there
          dsimp only at there
          split at there
          · exact (List.mem_cons.mp there).elim here (ih rfl)
          · exact (List.mem_cons.mp there).elim here onward

theorem found_of_match? (matched : p.match? c = some d) (longer : c.offset < d.offset) :
    p.found c = d :: p.found { d with captures := [] } := by
  obtain ⟨u, text, offset⟩ := relates_advances p c d (mem_run_of_match? matched)
  have shorter : d.rest.length < c.rest.length := by
    rw [text, List.length_append]
    omega
  rw [found, findFrom, matched]
  dsimp only
  rw [if_pos longer]
  exact congrArg _ (findFrom_congr shorter (Nat.lt_succ_self _))

theorem found_of_run_eq_nil {x : Char} (nothing : p.run c = []) (text : c.rest = x :: rest) :
    p.found c = p.found (c.past [x]) := by
  rw [found, findFrom, match?, nothing, Cursor.next?_eq text]
  refine findFrom_congr ?_ (Nat.lt_succ_self _)
  rw [Cursor.rest_past (u := [x]) text, text]
  simp

/-- A search goes on over a text in which nothing is found. -/
theorem found_past (nothing : ∀ v w, u = v ++ w → w ≠ [] → p.run (c.past v) = [])
    (text : c.rest = u ++ rest) : p.found c = p.found (c.past u) := by
  induction u generalizing c with
  | nil => rw [Cursor.past_nil]
  | cons x u ih =>
      have here : p.run c = [] := by
        simpa using nothing [] (x :: u) rfl (List.cons_ne_nil x u)
      rw [found_of_run_eq_nil here text, ih (fun v w split some_char => ?_)
        (Cursor.rest_past (u := [x]) text), Cursor.past_past, List.singleton_append]
      rw [Cursor.past_past]
      exact nothing ([x] ++ v) w (by rw [split]; rfl) some_char

end Pattern

end CommitSplit.Text
