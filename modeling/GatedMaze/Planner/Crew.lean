import GatedMaze.Leg
import GatedMaze.Planner.Ledger
import GatedMaze.Quadrants
import GatedMaze.Room

/-!
# Who walks

Either one agent fetches all keys, each from the key it fetched before, or there is an agent for
each quadrant, which fetches the keys of its quadrant from the last one it fetched there. Every
agent sets out from a start. A crowd has more agents than there is room for, and none of them can
set out. Main statement:

* `ofQuadrants_eq`: a crew of which there is room for all agents is no crowd.
-/

namespace GatedMaze

/-- The agents of a plan. -/
inductive Crew where
  | one
  /-- So many agents, and the one that each key belongs to. -/
  | perQuadrant (homes : Homes) (agents : Int)
  /-- Agents without room for them, and the reason. -/
  | crowd (homes : Homes) (reason : Fault)
  deriving DecidableEq, Repr

/-- The position that a number stands for among so many; negative numbers count from the end. -/
def position? (n : Nat) (q : Int) : Option Nat :=
  let q' := if q < 0 then q + n else q
  if 0 ≤ q' ∧ q' < n then some q'.toNat else none

namespace Crew

/-- An agent for each quadrant, of which there are so many. -/
def ofQuadrants (homes : Homes) (agents : Int) : Crew :=
  match roomFault? agents with
  | some reason => crowd homes reason
  | none => perQuadrant homes agents

/-- How many agents a crew is known by. -/
def size : Crew → Nat
  | one => 1
  | perQuadrant .. | crowd .. => 4

/-- The quadrants of the keys, for a crew that has them. -/
def homes : Crew → Homes
  | one => .empty
  | perQuadrant h _ | crowd h _ => h

/-- The last keys of so many agents after an entry; before any entry all stand at a start. -/
def posts (agents : Int) (prev : Option Entry) : List (Option Int) :=
  match prev with
  | none => List.replicate agents.toNat none
  | some e => if e.posts.isEmpty then List.replicate agents.toNat none else e.posts

/-- The place of the agent that fetches `k`, among `posts`. -/
def agentOf (homes : Homes) (posts : List (Option Int)) (k : Int) : Except Fault Nat :=
  match homes.of? k with
  | none => .error (.homeless k)
  | some q =>
    match position? posts.length q with
    | none => .error (if isCountable q then .noSuchAgent else .agentBeyondCount)
    | some i => .ok i

/-- The id that the agent that fetches `k` sets out from, after the state of `prev`: its last key,
or `start` while it has none. -/
def origin (c : Crew) (start : Int) (prev : Option (Int × Entry)) (k : Int) : Except Fault Int :=
  match c with
  | one => .ok (match prev with | none => start | some (j, _) => j)
  | perQuadrant homes agents =>
    let posts := posts agents (prev.map (·.2))
    (agentOf homes posts k).map fun i => (posts[i]?.join).getD start
  | crowd _ reason => .error reason

/-- The last keys of the agents once `k` is fetched. -/
def advance (c : Crew) (prev : Option Entry) (k : Int) : Except Fault (List (Option Int)) :=
  match c with
  | one => .ok []
  | perQuadrant homes agents =>
    let posts := posts agents prev
    (agentOf homes posts k).map fun i => posts.set i (some k)
  | crowd _ reason => .error reason

/-- **A crew of which there is room for all agents is no crowd.** -/
theorem ofQuadrants_eq (homes : Homes) {agents : Int}
    (h : -0x8000000000000000 ≤ agents ∧ agents < roomLimit) :
    ofQuadrants homes agents = perQuadrant homes agents := by
  rw [ofQuadrants, (roomFault?_eq_none_iff agents).2 h]

end Crew

end GatedMaze
