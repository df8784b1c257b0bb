import GatedMaze.Files
import GatedMaze.Solve
import GatedMaze.Summary

/-!
# Solving many mazes

Every maze is solved in every mode. A maze that cannot be solved in a mode gets a row all the same,
with the name of what went wrong; a file that is no maze ends the batch.
-/

namespace GatedMaze

/-- What a batch prints: its own lines, and the notes of the solves in between. -/
inductive Printed where
  | note (n : Note)
  | line (text : String)
  deriving DecidableEq, Repr

/-- The lines that a reader sees who has notes shown or not. -/
def Printed.lines (shown : Bool) (ps : List Printed) : List String :=
  ps.filterMap fun p =>
    match p with
    | note n => if shown then some n.line else none
    | line text => some text

/-- One maze in one mode. -/
structure Row where
  maze : String
  mode : String
  keys : Nat
  outcome : Except MazeError Plan

namespace Row

/-- The plan of a row that has one. -/
def plan? (r : Row) : Option Plan :=
  match r.outcome with
  | .ok plan => some plan
  | .error _ => none

/-- How a row turned out. -/
def status (r : Row) : String :=
  match r.outcome with
  | .ok _ => "ok"
  | .error e => e.label

/-- What a batch prints about a row. -/
def text (r : Row) : String :=
  match r.outcome with
  | .ok plan => s!"  {r.maze} [{r.mode}]: {plan.cost} moves in 0.00s"
  | .error e => s!"  {r.maze} [{r.mode}]: {e.label} - {e.message}"

end Row

/-- The ways in which a batch solves each maze unless told otherwise. -/
def standardModes : List (String × Config) :=
  [("single", { agents := 1, progress := false }),
   ("four", { agents := 4, progress := false }),
   ("split", { agents := 4, split := true, progress := false })]

/-- Solves a maze in one mode. -/
def solveRow (name : String) (m : Maze) (mode : String × Config) : Noted Printed Row := do
  let solved ← ((m.solve mode.2).mapNotes Printed.note).caught
  let outcome ←
    match solved with
    | .ok plan => pure (.ok plan)
    | .error (.maze e) => pure (.error e)
    | .error e => Noted.ofExcept (.error e)
  let row : Row := ⟨name, mode.1, m.keys.length, outcome⟩
  Noted.note (.line row.text)
  pure row

/-- Solves a maze in each mode. -/
def solveRows (name : String) (m : Maze) : List (String × Config) → Noted Printed (List Row)
  | [] => pure []
  | mode :: modes => do
    let row ← solveRow name m mode
    let rows ← solveRows name m modes
    pure (row :: rows)

/-- Solves the maze of each named text in each mode. -/
def solveAll (modes : List (String × Config)) :
    List (String × Except Fault String) → Noted Printed (List Row)
  | [] => pure []
  | (name, text) :: inputs => do
    let m ← Noted.ofExcept (text >>= Maze.ofText)
    let rows ← solveRows name m modes
    let more ← solveAll modes inputs
    pure (rows ++ more)

/-- Solves maze files in each mode, and prints a summary of the plans if there are any. -/
def runBatch (inputs : List (String × Except Fault String)) (modes : List (String × Config)) :
    Noted Printed (List Row) := do
  let rows ← solveAll modes inputs
  let plans := rows.filterMap Row.plan?
  if !plans.isEmpty then
    let summary ← Noted.ofExcept (summarize (plans.map Plan.tally))
    Noted.note (.line s!"📊 Summary: {summary.text}")
  pure rows

/-- The inputs of a batch from files: each under the last name of its path. -/
def batchInputs (fs : Files) (cwd : Path) (paths : List Path) :
    List (String × Except Fault String) :=
  paths.map fun p => (p.name, fs.readText cwd p)

end GatedMaze
