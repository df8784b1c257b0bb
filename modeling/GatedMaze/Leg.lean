import GatedMaze.IdSet
import GatedMaze.PairTable

/-!
# Legs

A leg is a walk between two landmarks, keys or starts: how many moves it takes and which gates it
crosses. A table of legs has at most one leg for each pair of landmarks.
-/

namespace GatedMaze

/-- The length of a walk between two landmarks, and the gates on it. -/
structure Leg where
  distance : Int
  gates : IdSet
  deriving DecidableEq, Repr

/-- The legs between landmarks, where there are any. -/
abbrev LegTable := PairTable (Option Leg)

/-- The leg of a pair, which must have one. -/
def LegTable.require (t : LegTable) (a b : Int) : Except Fault Leg := do
  match ← t.get a b with
  | some leg => pure leg
  | none => throw (.maze (.unreachable a b))

/-- How many pairs have a leg. -/
def LegTable.count (t : LegTable) : Nat := t.values.countP Option.isSome

end GatedMaze
