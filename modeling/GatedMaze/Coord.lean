/-!
# Places and moves

A place is a row and a column, counted from the top left corner of a board; places off the board
have coordinates too, negative ones included. A move goes to one of four neighbours.
-/

namespace GatedMaze

/-- A place on or off a board. -/
structure Coord where
  row : Int
  col : Int
  deriving DecidableEq, Repr

/-- The four moves. -/
inductive Move where
  | down
  | up
  | right
  | left
  deriving DecidableEq, Repr

/-- The moves in the order in which a search tries them. -/
def Move.all : List Move := [.down, .up, .right, .left]

theorem Move.mem_all (d : Move) : d ∈ Move.all := by cases d <;> simp [Move.all]

/-- The move back. -/
def Move.opposite : Move → Move
  | .down => .up
  | .up => .down
  | .right => .left
  | .left => .right

namespace Coord

/-- The neighbour that a move leads to. -/
def step (p : Coord) : Move → Coord
  | .down => ⟨p.row + 1, p.col⟩
  | .up => ⟨p.row - 1, p.col⟩
  | .right => ⟨p.row, p.col + 1⟩
  | .left => ⟨p.row, p.col - 1⟩

@[simp] theorem step_opposite (p : Coord) (d : Move) : (p.step d).step d.opposite = p := by
  cases p; cases d <;> simp [step, Move.opposite]

/-- The place `dr` rows down and `dc` columns to the right. -/
def shift (p : Coord) (dr dc : Int) : Coord := ⟨p.row + dr, p.col + dc⟩

/-- A place as it stands in a message. -/
def text (p : Coord) : String := s!"({p.row}, {p.col})"

end Coord

end GatedMaze
