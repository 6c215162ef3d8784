import CommitSplit.Proofs.Imports.Layout

/-!
# Lexing a spaced layout

How far the tokens of a script are read is a judgment with the text in front of which the reading
stops, since a word or a mark may go on there. Readings are put together one after the other. In
a spaced layout every word and mark becomes a token of its own, and every bracket that opens becomes
a frame that is left where it closes.
-/

namespace CommitSplit.Script

open Source (IsBlanks IsComment isSpace isLineBreak quoted)

/-- From a place in a text, some tokens are read up to another place. -/
def Lexes (dialect : Dialect) (s : Lexer) (cs : List Char) (ts : List Token) (s' : Lexer)
    (cs' : List Char) : Prop :=
  ∃ steps, steps + cs'.length ≤ cs.length ∧
    ∀ fuel, lexFrom dialect (fuel + steps) s cs = ts ++ lexFrom dialect fuel s' cs'

namespace Lexes

variable {dialect : Dialect} {s s' s'' : Lexer} {cs cs' cs'' : List Char} {ts ts' : List Token}

theorem refl (s : Lexer) (cs : List Char) : Lexes dialect s cs [] s cs :=
  ⟨0, by simp, fun _ => rfl⟩

theorem trans (h : Lexes dialect s cs ts s' cs') (h' : Lexes dialect s' cs' ts' s'' cs'') :
    Lexes dialect s cs (ts ++ ts') s'' cs'' := by
  obtain ⟨steps, shorter, lexed⟩ := h
  obtain ⟨steps', shorter', lexed'⟩ := h'
  refine ⟨steps' + steps, by omega, fun fuel => ?_⟩
  rw [← Nat.add_assoc, lexed, lexed', List.append_assoc]

theorem step {c : Char} (stepped : stepAt dialect s c cs = (ts, s', cs'))
    (shorter : cs'.length ≤ cs.length) : Lexes dialect s (c :: cs) ts s' cs' := by
  refine ⟨1, by simp; omega, fun fuel => ?_⟩
  rw [lexFrom, stepped]

theorem skip (h : Lexes dialect s cs [] s' cs') (h' : Lexes dialect s' cs' ts s'' cs'') :
    Lexes dialect s cs ts s'' cs'' :=
  h.trans h'

/-- The tokens of a whole text. -/
theorem tokens_eq (h : Lexes dialect Lexer.start cs ts s' cs')
    (same : dropInterpreterLine cs = cs) :
    ∃ fuel, tokens dialect cs = ts ++ lexFrom dialect fuel s' cs' := by
  obtain ⟨steps, shorter, lexed⟩ := h
  refine ⟨cs.length + 1 - steps, ?_⟩
  rw [tokens, same, ← lexed, Nat.sub_add_cancel (by omega)]

end Lexes

/-! ## Steps in code -/

/-- Inside of brackets only, and of so many. -/
structure InBrackets (s : Lexer) (depth : Nat) : Prop where
  count : s.frames.length = depth
  kinds : ∀ frame ∈ s.frames, ∃ kind, frame.kind = .bracket kind

variable {dialect : Dialect} {s : Lexer} {depth : Nat} {c : Char} {cs rest : List Char}

theorem InBrackets.of_frames_eq {s' : Lexer} (h : InBrackets s depth)
    (same : s'.frames = s.frames) : InBrackets s' depth where
  count := same ▸ h.count
  kinds := same ▸ h.kinds

theorem stepAt_eq (h : InBrackets s depth) :
    stepAt dialect s c rest =
      if isSpace c then ([], { s with onNewLine := s.onNewLine || isLineBreak c }, rest)
      else if c = '/' && rest.head? = some '/' then
        ([], { s with afterComment := true }, rest.dropWhile fun c => !isLineBreak c)
      else if c = '/' && rest.head? = some '*' then
        let (broken, rest) := pastBlockComment (rest.drop 1)
        ([], { s with afterComment := true, onNewLine := s.onNewLine || broken }, rest)
      else stepCode dialect s c rest := by
  rw [stepAt]
  cases frames : s.frames with
  | nil => rfl
  | cons frame frames' =>
      obtain ⟨kind, isBracket⟩ := h.kinds frame (frames ▸ List.mem_cons_self)
      rw [List.head?_cons, Option.map_some, isBracket]

/-- The same place up to what stands in front. -/
structure Lexer.Alike (s s' : Lexer) : Prop where
  frames : s'.frames = s.frames
  position : s'.position = s.position

theorem Lexer.Alike.trans {s' s'' : Lexer} (h : s.Alike s') (h' : s'.Alike s'') : s.Alike s'' :=
  ⟨h'.frames.trans h.frames, h'.position.trans h.position⟩

theorem InBrackets.of_alike {s' : Lexer} (h : InBrackets s depth) (alike : s.Alike s') :
    InBrackets s' depth :=
  h.of_frames_eq alike.frames

/-- A step over a symbol that is neither blank nor a slash is a step in code. -/
theorem lexes_of_stepCode {ts : List Token} {cs' : List Char} (h : InBrackets s depth)
    (plain : isSpace c = false) (other : c ≠ '/') (tokens : (stepCode dialect s c cs).1 = ts)
    (behind : (stepCode dialect s c cs).2.2 = cs') (shorter : cs'.length ≤ cs.length) :
    Lexes dialect s (c :: cs) ts (stepCode dialect s c cs).2.1 cs' := by
  refine .step ?_ shorter
  rw [stepAt_eq h, if_neg (by simp [plain]), if_neg (by simp [other]), if_neg (by simp [other]),
    ← tokens, ← behind]

/-! ## Where words and marks end -/

/-- A word or mark ends in front of a text. -/
def Ends (rest : List Char) : Atom → Prop
  | .word _ => ∀ c ∈ rest.head?, isWordPart c = false
  | .star => ∀ c ∈ rest.head?, c ≠ '*' ∧ c ≠ '='
  | _ => True

theorem isSpace_of_isBlank (blank : Text.isBlank c = true) : isSpace c = true := by
  simp [isSpace, blank]

theorem isSpace_of_isWordPart (part : isWordPart c = true) : isSpace c = false := by
  by_cases ascii : c.toNat < 128
  · exact Source.forall_ascii (fun c => isWordPart c = true → isSpace c = false)
      (by decide) c ascii part
  · simpa [isWordPart, ascii] using part

/-- A blank is the end of every word and mark. -/
theorem ends_of_isBlank {a : Atom} (blank : Text.isBlank c = true) : Ends (c :: rest) a := by
  cases a with
  | word t =>
      rintro x ⟨⟩
      by_contra part
      rw [Bool.not_eq_false] at part
      exact Bool.noConfusion ((isSpace_of_isBlank blank).symm.trans (isSpace_of_isWordPart part))
  | star =>
      rintro x ⟨⟩
      constructor <;> rintro rfl <;> exact Bool.noConfusion (blank : false = true)
  | _ => trivial

/-- Where no blank is needed the next word or mark is the end. -/
theorem ends_of_needsGap {a b : Atom} (fine : b.Fine) (free : a.needsGap b = false) :
    Ends (b.text ++ rest) a := by
  cases a with
  | word t =>
      cases b with
      | comma | closing => rintro x ⟨⟩; rfl
      | _ => cases free
  | star =>
      cases b with
      | comma | closing | opening => rintro x ⟨⟩; decide
      | name mark t =>
          rintro x ⟨⟩
          have apart : ∀ mark ∈ Specifier.quotes.toList, mark ≠ '*' ∧ mark ≠ '=' :=
            List.all_iff_forall_prop.mp rfl
          exact apart mark fine.1
      | _ => cases free
  | _ => trivial

/-- In a spaced layout a word or mark ends in front of its gap. -/
theorem Spaced.ends {x y : Atom × List Char} {xs : List (Atom × List Char)}
    (h : Spaced (x :: y :: xs)) : Ends (x.2 ++ (y.1.text ++ rest)) x.1 := by
  cases gap : x.2 with
  | nil =>
      refine ends_of_needsGap (h.fine y (by simp)).1 (Bool.eq_false_iff.mpr fun needed => ?_)
      exact h.gap_ne_nil [] needed gap
  | cons b bs =>
      have blank := (h.fine x (by simp)).2 b (by rw [gap]; exact List.mem_cons_self)
      exact ends_of_isBlank blank

theorem Spaced.ends_front {x : Atom × List Char} {xs : List (Atom × List Char)} {mark : Char}
    {t : List Char} (h : Spaced (x :: xs ++ [(.name mark t, [])])) :
    Ends (x.2 ++ (spell xs ++ ((Atom.name mark t).text ++ rest))) x.1 := by
  cases xs with
  | nil => exact Spaced.ends h
  | cons y xs =>
      have ahead : Ends (x.2 ++ (y.1.text ++ (y.2 ++ (spell xs ++
        ((Atom.name mark t).text ++ rest))))) x.1 := Spaced.ends h
      simpa using ahead

/-! ## Blanks and comments -/

variable (dialect rest)

/-- Blanks are no tokens. -/
theorem lexes_blanks (h : InBrackets s depth) (blanks : IsBlanks cs) :
    ∃ s', Lexes dialect s (cs ++ rest) [] s' rest ∧ s.Alike s' := by
  induction cs generalizing s with
  | nil => exact ⟨s, .refl s rest, rfl, rfl⟩
  | cons c cs ih =>
      obtain ⟨blank, blanks⟩ := List.forall_mem_cons.mp blanks
      have alike : s.Alike { s with onNewLine := s.onNewLine || isLineBreak c } := ⟨rfl, rfl⟩
      obtain ⟨s', lexed, alike'⟩ := ih (h.of_alike alike) blanks
      refine ⟨s', .skip (.step ?_ (Nat.le_refl _)) lexed, alike.trans alike'⟩
      rw [stepAt_eq h, if_pos (isSpace_of_isBlank blank)]

/-- Neither is a comment. -/
theorem lexes_comment (h : InBrackets s depth) (comment : IsComment cs) :
    ∃ s', Lexes dialect s (cs ++ rest) [] s' rest ∧ s.Alike s' := by
  cases comment with
  | @line cs ending one_line ends =>
      have alike : s.Alike { s with afterComment := true } := ⟨rfl, rfl⟩
      obtain ⟨s', lexed, alike'⟩ := lexes_blanks dialect rest (h.of_alike alike)
        (Source.isBlanks_of_isLineEnd ends)
      have within : ∀ c ∈ '/' :: cs, (!isLineBreak c) = true := by
        refine List.forall_mem_cons.mpr ⟨rfl, fun c there => ?_⟩
        rw [one_line c there]
        rfl
      have behind : ('/' :: (cs ++ (ending ++ rest))).dropWhile (fun c => !isLineBreak c) =
          ending ++ rest := by
        rw [← List.cons_append, List.dropWhile_append_of_pos within]
        cases ends <;> rfl
      simp only [List.cons_append, List.append_assoc]
      refine ⟨s', .skip (.step ?_ ?_) lexed, alike.trans alike'⟩
      · rw [stepAt_eq h, if_neg (by decide)]
        exact congrArg (fun cs => ([], { s with afterComment := true }, cs)) behind
      · simp only [List.length_cons, List.length_append]
        omega

/-! ## Words and marks -/

/-- What a word or mark is read as. -/
inductive Shows : Atom → Symbol → Prop
  | word (t : String) : Shows (.word t) (.word t)
  | name (mark : Char) (t : List Char) :
      Shows (.name mark t) (.string (String.ofList (mark :: (t ++ [mark]))))
  | star : Shows .star (.mark "*")
  | comma : Shows .comma (.mark ",")
  | opening {kind : Bracket} : kind ≠ .paren → Shows .opening (.opening kind)
  | closing (kind : Bracket) : Shows .closing (.closing kind)

theorem lexes_word {t : String} (h : InBrackets s depth) (word : IsWord t)
    (ends : Ends rest (.word t)) :
    ∃ s', Lexes dialect s (t.toList ++ rest) [s.token (.word t)] s' rest ∧
      s'.frames = s.frames := by
  obtain ⟨c, cs, spelled, letter⟩ := word.begins
  have parts : ∀ x ∈ c :: cs, isWordPart x = true := fun x there =>
    (word.parts x (spelled ▸ there)).1
  obtain ⟨first, parts⟩ := List.forall_mem_cons.mp parts
  obtain ⟨taken, left⟩ := Source.span_append parts ends
  have start : isWordStart c = true := by simp [isWordStart, first, letter]
  have other : c ≠ '/' := by
    rintro rfl
    exact Bool.noConfusion (first : false = true)
  rw [spelled, List.cons_append]
  refine ⟨_, lexes_of_stepCode h (isSpace_of_isWordPart first) other ?_ ?_ (by simp), ?_⟩
  · rw [stepCode, if_pos start]
    have whole : String.ofList (c :: (cs ++ rest).takeWhile isWordPart) = t := by
      rw [taken, ← spelled, String.ofList_toList]
    rw [whole]
  · rw [stepCode, if_pos start]
    exact left
  · rw [stepCode, if_pos start]
    rfl

theorem lexes_star (h : InBrackets s depth) (ends : Ends rest .star) :
    ∃ s', Lexes dialect s ('*' :: rest) [s.token (.mark "*")] s' rest ∧ s'.frames = s.frames := by
  have alone : markAt ('*' :: rest) = "*" := by
    cases rest with
    | nil => rfl
    | cons x rest =>
        obtain ⟨other, other'⟩ := ends x rfl
        simp [markAt, longMarks, List.isPrefixOf, other.symm, other'.symm]
  have token : (stepCode dialect s '*' rest).1 = [s.token (.mark (markAt ('*' :: rest)))] := rfl
  have behind : (stepCode dialect s '*' rest).2.2 =
      ('*' :: rest).drop (markAt ('*' :: rest)).length := rfl
  rw [alone] at token behind
  exact ⟨_, lexes_of_stepCode h (by decide) (by decide) token behind (Nat.le_refl _), rfl⟩

theorem lexes_comma (h : InBrackets s depth) :
    ∃ s', Lexes dialect s (',' :: rest) [s.token (.mark ",")] s' rest ∧ s'.frames = s.frames := by
  have behind : (stepCode dialect s ',' rest).2.2 =
      (',' :: rest).drop (markAt (',' :: rest)).length := rfl
  have alone : markAt (',' :: rest) = "," := rfl
  rw [alone] at behind
  exact ⟨_, lexes_of_stepCode h (by decide) (by decide) rfl behind (Nat.le_refl _), rfl⟩

theorem lexes_semicolon (h : InBrackets s depth) :
    ∃ s', Lexes dialect s (';' :: rest) [s.token (.mark ";")] s' rest ∧ s'.frames = s.frames ∧
      s'.position = .statement := by
  have behind : (stepCode dialect s ';' rest).2.2 =
      (';' :: rest).drop (markAt (';' :: rest)).length := rfl
  have alone : markAt (';' :: rest) = ";" := rfl
  rw [alone] at behind
  exact ⟨_, lexes_of_stepCode h (by decide) (by decide) rfl behind (Nat.le_refl _), rfl, rfl⟩

theorem openBrace_spec (s : Lexer) :
    (openBrace s).1 ≠ .paren ∧ (openBrace s).2.2.frames = s.frames := by
  rw [openBrace]
  cases s.level.body with
  | some resume => dsimp only; split <;> exact ⟨nofun, rfl⟩
  | none =>
      dsimp only
      split
      · exact ⟨nofun, rfl⟩
      · split
        · exact ⟨nofun, rfl⟩
        · split <;> exact ⟨nofun, rfl⟩

theorem lexes_opening (h : InBrackets s depth) :
    ∃ t s', Lexes dialect s ('\x7b' :: rest) [t] s' rest ∧ Shows .opening t.symbol ∧
      InBrackets s' (depth + 1) := by
  have token : (stepCode dialect s '\x7b' rest).1 =
      [(openBrace s).2.2.token (.opening (openBrace s).1)] := rfl
  have frames : (stepCode dialect s '\x7b' rest).2.1.frames =
      ⟨.bracket (openBrace s).1, (openBrace s).2.1, (openBrace s).2.2.level⟩ ::
        (openBrace s).2.2.frames := rfl
  obtain ⟨kind, same⟩ := openBrace_spec s
  rw [same] at frames
  refine ⟨_, _, lexes_of_stepCode h (by decide) (by decide) token rfl (Nat.le_refl _),
    .opening kind, ?_, ?_⟩
  · rw [frames, List.length_cons, h.count]
  · rw [frames]
    exact List.forall_mem_cons.mpr ⟨⟨_, rfl⟩, h.kinds⟩

theorem lexes_closing (h : InBrackets s (depth + 1)) :
    ∃ t s', Lexes dialect s ('\x7d' :: rest) [t] s' rest ∧ Shows .closing t.symbol ∧
      InBrackets s' depth := by
  obtain ⟨frame, frames, some_frame⟩ := List.exists_cons_of_length_eq_add_one h.count
  have all_kinds := h.kinds
  rw [some_frame] at all_kinds
  obtain ⟨⟨kind, isBracket⟩, kinds⟩ := List.forall_mem_cons.mp all_kinds
  have count := h.count
  rw [some_frame, List.length_cons, Nat.add_right_cancel_iff] at count
  obtain ⟨_, resume, around⟩ := frame
  obtain rfl : _ = FrameKind.bracket kind := isBracket
  have stepped : stepCode dialect s '\x7d' rest = closeBracket s '\x7d' rest := rfl
  rw [closeBracket, some_frame] at stepped
  dsimp only at stepped
  refine ⟨_, _, lexes_of_stepCode h (by decide) (by decide) (congrArg Prod.fst stepped)
    (congrArg (fun step => step.2.2) stepped) (Nat.le_refl _), .closing kind, ?_⟩
  have left : (stepCode dialect s '\x7d' rest).2.1.frames = frames := by
    rw [stepped]
    simp [Lexer.leave, Lexer.past, some_frame]
  exact ⟨left ▸ count, left ▸ kinds⟩

theorem quoted_eq {mark : Char} {t : List Char} (plain : ∀ x ∈ t, x ≠ '\\' ∧ x ≠ mark)
    (other : mark ≠ '\\') : quoted mark (t ++ mark :: rest) = (t ++ [mark], rest) := by
  induction t with
  | nil =>
      cases rest with
      | nil => rfl
      | cons c rest => simp [quoted, other]
  | cons c t ih =>
      obtain ⟨⟨other, unlike⟩, plain⟩ := List.forall_mem_cons.mp plain
      obtain ⟨d, ds, more⟩ := List.exists_cons_of_ne_nil (l := t ++ mark :: rest) (by simp)
      have inner := ih plain
      rw [more] at inner
      rw [List.cons_append, more, quoted, if_neg other, if_neg unlike, inner]
      rfl

/-- A quoted name is read as a string. -/
theorem lexes_name {mark : Char} {t : List Char} (h : InBrackets s depth)
    (fine : (Atom.name mark t).Fine) :
    ∃ s', Lexes dialect s ((Atom.name mark t).text ++ rest)
        [s.token (.string (String.ofList (mark :: (t ++ [mark]))))] s' rest ∧
      s'.frames = s.frames ∧ s'.position = .operator := by
  obtain ⟨isMark, named⟩ := fine
  have marks : ∀ mark ∈ Specifier.quotes.toList,
      isQuote mark = true ∧ mark ≠ '\\' ∧ isSpace mark = false ∧ mark ≠ '/' :=
    List.all_iff_forall_prop.mp rfl
  obtain ⟨quotes, other, plain, unlike⟩ := marks mark isMark
  have unquoted : quoted mark (t ++ mark :: rest) = (t ++ [mark], rest) := by
    refine quoted_eq rest (fun x there => ⟨(named.plain x there).2.1, ?_⟩) other
    rintro rfl
    rw [(named.plain _ there).1] at quotes
    cases quotes
  have stepped : stepCode dialect s mark (t ++ mark :: rest) =
      single s (.string (String.ofList (mark :: (quoted mark (t ++ mark :: rest)).1))) .operator
        (quoted mark (t ++ mark :: rest)).2 := by
    have cases : mark = '\x22' ∨ mark = '\x27' := by simpa [Specifier.quotes] using isMark
    rcases cases with rfl | rfl <;> rfl
  have text : (Atom.name mark t).text ++ rest = mark :: (t ++ mark :: rest) := by simp [Atom.text]
  rw [unquoted] at stepped
  rw [text]
  refine ⟨_, lexes_of_stepCode h plain unlike (congrArg Prod.fst stepped)
    (congrArg (fun step => step.2.2) stepped) ?_, ?_⟩
  · rw [List.length_append, List.length_cons]
    omega
  · rw [stepped]
    exact ⟨rfl, rfl⟩

/-- Every word or mark is read as one token. -/
theorem lexes_atom {a : Atom} (h : InBrackets s depth) (fine : a.Fine) (ends : Ends rest a)
    (closes : a = .closing → 0 < depth) :
    ∃ t s', Lexes dialect s (a.text ++ rest) [t] s' rest ∧ Shows a t.symbol ∧
      InBrackets s' (a.depthAfter depth) := by
  cases a with
  | word t =>
      obtain ⟨s', lexed, same⟩ := lexes_word dialect rest h fine ends
      exact ⟨_, s', lexed, .word t, h.of_frames_eq same⟩
  | name mark t =>
      obtain ⟨s', lexed, same, -⟩ := lexes_name dialect rest h fine
      exact ⟨_, s', lexed, .name mark t, h.of_frames_eq same⟩
  | star =>
      obtain ⟨s', lexed, same⟩ := lexes_star dialect rest h ends
      exact ⟨_, s', lexed, .star, h.of_frames_eq same⟩
  | comma =>
      obtain ⟨s', lexed, same⟩ := lexes_comma dialect rest h
      exact ⟨_, s', lexed, .comma, h.of_frames_eq same⟩
  | opening => exact lexes_opening dialect rest h
  | closing =>
      obtain ⟨fewer, rfl⟩ := Nat.exists_eq_add_one_of_ne_zero (Nat.pos_iff_ne_zero.mp (closes rfl))
      exact lexes_closing dialect rest h

/-! ## Spaced layouts -/

/-- A clause in front of the name of a module is read word by word and mark by mark. -/
theorem lexes_clause {xs : List (Atom × List Char)} {mark : Char} {t : List Char}
    (h : InBrackets s depth) (clause : Clause depth (xs.map Prod.fst))
    (spaced : Spaced (xs ++ [(.name mark t, [])])) :
    ∃ ts s', Lexes dialect s (spell xs ++ ((Atom.name mark t).text ++ rest)) ts s'
        ((Atom.name mark t).text ++ rest) ∧
      List.Forall₂ (fun a t => Shows a t.symbol) (xs.map Prod.fst) ts ∧ InBrackets s' 0 := by
  induction xs generalizing s depth with
  | nil =>
      obtain rfl : depth = 0 := clause
      exact ⟨[], s, .refl s _, .nil, h⟩
  | cons x xs ih =>
      have fine := spaced.fine x List.mem_cons_self
      have closes : x.1 = .closing → 0 < depth := by
        intro same
        rw [List.map_cons, same] at clause
        exact clause.1
      obtain ⟨token, s₁, first, shows, inside⟩ :=
        lexes_atom dialect _ h fine.1 spaced.ends_front closes
      obtain ⟨s₂, gap, alike⟩ := lexes_blanks dialect _ inside fine.2
      obtain ⟨ts, s₃, others, shown, closed⟩ := ih (inside.of_alike alike) clause.tail spaced.tail
      refine ⟨token :: ts, s₃, ?_, .cons shows shown, closed⟩
      rw [spell_cons, List.append_assoc, List.append_assoc]
      exact first.trans (gap.skip others)

end CommitSplit.Script
