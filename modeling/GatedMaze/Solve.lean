import GatedMaze.Maze.Reader
import GatedMaze.Maze.Split
import GatedMaze.Maze.Survey
import GatedMaze.Planner
import GatedMaze.Replay

/-!
# Solving a maze

From a maze to the fewest moves that collect its keys: split it if asked to, find the legs, group
the keys if there are several agents, plan, and walk the plan as a check.
-/

namespace GatedMaze

/-- How a maze is to be solved. -/
structure Config where
  /-- One agent or four. -/
  agents : Int := 1
  /-- How many quadrants four agents may have. -/
  quadrants : Int := 4
  split : Bool := false
  /-- Whether notes of the planner's levels are left. -/
  progress : Bool := true
  deriving DecidableEq, Repr

/-- The agents that a maze is solved with. -/
def Config.crew (cfg : Config) (keyIds : List Int) (legs : LegTable) : Noted Note Crew :=
  if cfg.agents = 1 then pure .one
  else do
    let homes ← notedQuadrants keyIds legs cfg.quadrants
    pure (.perQuadrant homes cfg.quadrants)

/-- The maze that is solved: the given one or its split, with the starts the agents need. -/
def Config.prepare (cfg : Config) (m : Maze) : Except Fault Maze := do
  if cfg.agents ≠ 1 ∧ cfg.agents ≠ 4 then throw (.agentCount cfg.agents)
  let m ← if cfg.split then m.split else pure m
  if cfg.agents = 1 ∧ m.starts.length ≠ 1 then
    throw (.defectOf (.loneStart m.starts.length))
  pure m

/-- Walks a plan and compares the moves with those that the plan states. -/
def Plan.check (plan : Plan) (legs : LegTable) (start : Int) : Noted Note Unit := do
  let homes := if plan.homes.entries.isEmpty then none else some plan.homes
  let walk ← replay legs start plan.order homes
  if walk.cost ≠ plan.cost then
    Noted.ofExcept
      (.error (.impasse (.disputed (lettersOrDash plan.order) walk.cost plan.cost)))

/-- The cheapest plan for a maze. -/
def Maze.solve (m : Maze) (cfg : Config) : Noted Note Plan := do
  let m ← Noted.ofExcept (cfg.prepare m)
  Noted.note (.maze m.board.rows m.board.cols m.keyIds)
  Noted.notesOf (if cfg.split then m.drawing.map Note.row else [])
  let legs ← m.notedLegs
  let crew ← cfg.crew m.keyIds legs
  let problem := Problem.ofKeys legs m.keyIds m.startId crew cfg.progress
  let plan ← ((Planner.ofProblem problem).solve false).2
  plan.check legs m.startId
  Noted.note (.result plan.cost plan.order)
  pure plan

/-- The cheapest plan for the maze that a text draws. -/
def solveText (text : String) (cfg : Config) : Noted Note Plan := do
  let m ← Noted.ofExcept (Maze.ofText text)
  m.solve cfg

end GatedMaze
