/-!
# Risk levels

Risk is ordered from low over medium to high, and a set of files has the greatest risk among them.
-/

namespace CommitSplit

inductive Risk
  | low | medium | high
  deriving DecidableEq, Inhabited

namespace Risk

def all : List Risk :=
  [low, medium, high]

def name : Risk → String
  | low => "low"
  | medium => "medium"
  | high => "high"

/-- The place of a level in the order. -/
def rank : Risk → Nat
  | low => 0
  | medium => 1
  | high => 2

instance : LE Risk :=
  ⟨fun a b => a.rank ≤ b.rank⟩

instance (a b : Risk) : Decidable (a ≤ b) :=
  inferInstanceAs (Decidable (a.rank ≤ b.rank))

/-- The greater of two levels. -/
def max (a b : Risk) : Risk :=
  if a ≤ b then b else a

/-- The greatest level of a list, low for the empty one. -/
def maximum (levels : List Risk) : Risk :=
  levels.foldl max low

end Risk

end CommitSplit
