import CommitSplit.Proofs.Surface.Sighting
import CommitSplit.Surface.Python.Reader

/-!
# The names of Python, one after the other

A source text is gone through once. Modules are met where they are imported. What is exported is
known only at the end: if a list was given, the names of the last one, and otherwise the names that
were declared, but for the private ones.
-/

namespace CommitSplit.Python

/-- What is known while a source text is gone through. -/
structure Progress where
  /-- The modules that were met. -/
  met : List Sighting
  /-- The names that were declared, private ones among them. -/
  names : List String
  /-- The last list of exports. -/
  listed : Option (List String)

namespace Progress

def start : Progress :=
  ⟨[], [], none⟩

def step (p : Progress) : Binding → Progress
  | .imports modules => { p with met := p.met ++ modules.map .imported }
  | .declares name => { p with names := p.names ++ [name] }
  | .exports names => { p with listed := names }

/-- Names that begin with an underscore are private. -/
def isPrivate (name : String) : Bool :=
  name.toList.head? = some '_'

/-- All names in order, once the end is reached. -/
def close (p : Progress) : List Sighting :=
  p.met ++ (p.listed.getD (p.names.filter (!isPrivate ·))).map .exported

end Progress

/-- The names of a source text as they are met. -/
def sightings (content : List Char) : List Sighting :=
  (((codeLines content).flatMap readLine).foldl Progress.step .start).close

/-! ## What the reader collects -/

/-- The progress agrees with what the reader finds in the bindings so far. -/
structure Progress.Tracks (p : Progress) (bs : List Binding) : Prop where
  met : p.met = (imported bs).map .imported
  names : p.names.filter (!isPrivate ·) = declared bs
  listed : p.listed = explicit? bs

namespace Progress.Tracks

variable {p : Progress} {bs : List Binding}

theorem step (h : p.Tracks bs) (b : Binding) : (p.step b).Tracks (bs ++ [b]) := by
  obtain ⟨met, names, listed⟩ := h
  cases b with
  | imports modules =>
      refine ⟨?_, ?_, ?_⟩
      · simp [Progress.step, met, imported]
      · simpa [Progress.step, declared] using names
      · simpa [Progress.step, explicit?] using listed
  | declares name =>
      refine ⟨?_, ?_, ?_⟩
      · simpa [Progress.step, imported] using met
      · rw [declared] at names ⊢
        by_cases hidden : name.toList.head? = some '_' <;>
          simp [Progress.step, isPrivate, ← names, hidden]
      · simpa [Progress.step, explicit?] using listed
  | exports names' =>
      refine ⟨?_, ?_, ?_⟩
      · simpa [Progress.step, imported] using met
      · simpa [Progress.step, declared] using names
      · simp [Progress.step, explicit?]

theorem foldl (bs : List Binding) : (bs.foldl Progress.step .start).Tracks bs := by
  induction bs using List.reverseRecOn with
  | nil => exact ⟨rfl, rfl, rfl⟩
  | append_singleton bs b ih =>
      rw [List.foldl_append]
      exact ih.step b

end Progress.Tracks

theorem read_eq_foldl_note (content : List Char) :
    read content = (sightings content).foldl SurfaceNames.note .empty := by
  obtain ⟨met, names, listed⟩ := Progress.Tracks.foldl ((codeLines content).flatMap readLine)
  rw [SurfaceNames.foldl_note_eq, sightings, Progress.close, met, names, listed]
  simp [read]

end CommitSplit.Python
