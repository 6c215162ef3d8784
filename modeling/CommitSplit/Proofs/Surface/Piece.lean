import CommitSplit.Surface.Piece
import Mathlib.Data.List.Basic

/-!
# Putting tokens together

Tokens whose brackets match are put together in the same way wherever they stand. What is put
together outside of all brackets stays in front of what follows.
-/

namespace CommitSplit.Piece

variable {ts ts' : List SourceToken} {ps ps' front : List Piece} {t : SourceToken}

theorem assemble_cons (us : List Unclosed) (recent : List Piece) (t : SourceToken)
    (ts : List SourceToken) :
    assemble us recent (t :: ts) =
      match t.sign, us with
      | .opening fence, us => assemble (⟨fence, t.extent.start, recent⟩ :: us) [] ts
      | .closing _, [] => assemble [] recent ts
      | .closing _, u :: us => assemble us (u.close recent t.extent.behind) ts
      | sign, us => assemble us (single sign t.extent :: recent) ts := by
  rw [assemble.eq_def]
  dsimp only
  cases t.sign <;> cases us <;> rfl

/-- Some tokens become some pieces, wherever they stand. -/
def Become (ts : List SourceToken) (ps : List Piece) : Prop :=
  ∀ us recent more, assemble us recent (ts ++ more) = assemble us (ps.reverse ++ recent) more

namespace Become

protected theorem nil : Become [] [] :=
  fun _ _ _ => rfl

protected theorem append (h : Become ts ps) (h' : Become ts' ps') :
    Become (ts ++ ts') (ps ++ ps') := by
  intro us recent more
  rw [List.append_assoc, h, h', List.reverse_append, List.append_assoc]

protected theorem single (isOpening : ∀ fence, t.sign ≠ .opening fence)
    (isClosing : ∀ fence, t.sign ≠ .closing fence) : Become [t] [single t.sign t.extent] := by
  intro us recent more
  rw [List.singleton_append, assemble_cons]
  split
  · exact absurd ‹_› (isOpening _)
  · exact absurd ‹_› (isClosing _)
  · exact absurd ‹_› (isClosing _)
  · rfl

protected theorem word (text : String) (e : Extent) :
    Become [⟨.word text, e⟩] [single (.word text) e] :=
  .single nofun nofun

protected theorem mark (text : String) (e : Extent) :
    Become [⟨.mark text, e⟩] [single (.mark text) e] :=
  .single nofun nofun

protected theorem group (fence : Fence) (e e' : Extent) (h : Become ts ps) :
    Become (⟨.opening fence, e⟩ :: (ts ++ [⟨.closing fence, e'⟩]))
      [group fence ps ⟨e.start, e'.behind⟩] := by
  intro us recent more
  rw [List.cons_append, assemble_cons, List.append_assoc]
  dsimp only
  rw [h, List.singleton_append, assemble_cons, List.append_nil]
  simp [Unclosed.close]

end Become

/-- The same brackets are open, with some more pieces in front of them all. -/
inductive Over (front : List Piece) :
    List Unclosed → List Piece → List Unclosed → List Piece → Prop
  | outside (recent : List Piece) : Over front [] recent [] (recent ++ front.reverse)
  | inside {fence : Fence} {start : List Char} {us us' : List Unclosed}
      {before before' : List Piece} (recent : List Piece) : Over front us before us' before' →
      Over front (⟨fence, start, before⟩ :: us) recent (⟨fence, start, before'⟩ :: us') recent

theorem Over.cons {us us' : List Unclosed} {recent recent' : List Piece}
    (h : Over front us recent us' recent') (p : Piece) :
    Over front us (p :: recent) us' (p :: recent') := by
  cases h with
  | outside => exact .outside (p :: recent)
  | inside _ under => exact .inside _ under

theorem Over.closeAll {us us' : List Unclosed} {recent recent' : List Piece}
    (h : Over front us recent us' recent') :
    closeAll recent' us' = front ++ closeAll recent us := by
  induction us generalizing us' recent recent' with
  | nil =>
      cases h with
      | outside => simp [Piece.closeAll]
  | cons u us ih =>
      cases h with
      | @inside fence start _ _ _ _ _ under =>
          have closed := ih (under.cons (group fence recent.reverse ⟨start, []⟩))
          exact closed

theorem Over.assemble {us us' : List Unclosed} {recent recent' : List Piece}
    (h : Over front us recent us' recent') (ts : List SourceToken) :
    assemble us' recent' ts = front ++ assemble us recent ts := by
  induction ts generalizing us us' recent recent' with
  | nil => exact h.closeAll
  | cons t ts ih =>
      rw [assemble_cons, assemble_cons]
      cases t.sign with
      | opening fence => exact ih (.inside [] h)
      | closing fence =>
          cases h with
          | outside => exact ih (.outside recent)
          | inside _ under => exact ih (under.cons _)
      | _ => exact ih (h.cons _)

/-- Pieces stay in front of what is put together behind them. -/
theorem Become.ofTokens_append (h : Become ts ps) (more : List SourceToken) :
    ofTokens (ts ++ more) = ps ++ ofTokens more := by
  have front : Over ps [] [] [] ps.reverse := .outside []
  rw [ofTokens, h, ofTokens, List.append_nil, front.assemble]

end CommitSplit.Piece
