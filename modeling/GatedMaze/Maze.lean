import GatedMaze.Board
import GatedMaze.Cell
import GatedMaze.Text.Listed

/-!
# Mazes

A maze is a board of cells on which no key letter lies twice. Where the keys, gates and starts lie
is read off the board, so the board is all that a maze consists of. Keys go by their letter as an
id; all starts share one further id.
-/

namespace GatedMaze

/-- A board of cells with at most one key of each letter. -/
structure Maze where
  board : Board Cell
  keys_nodup : (board.cells.toList.filterMap Cell.key?).Nodup

namespace Maze

/-- The cell at a place, none outside the maze. -/
def at? (m : Maze) (p : Coord) : Option Cell := m.board.get? p

/-- Where a kind of cell stands, row by row. -/
def placesOf (m : Maze) (c : Cell) : List Coord :=
  (m.board.places.filter fun v => v.2 = c).map (·.1)

/-- The keys by letter, each with its place. -/
def keys (m : Maze) : List (Letter × Coord) :=
  (m.board.places.filterMap fun v => v.2.key?.map fun k => (k, v.1)).mergeSort
    fun a b => a.1 ≤ b.1

/-- The gates by letter, each with its places row by row. -/
def gates (m : Maze) : List (Letter × List Coord) :=
  let standing := m.board.places.filterMap fun v => v.2.gate?.map fun g => (g, v.1)
  (List.finRange 26).filterMap fun g =>
    match (standing.filter fun v => v.1 = g).map (·.2) with
    | [] => none
    | ps => some (g, ps)

/-- The starts, row by row. -/
def starts (m : Maze) : List Coord := m.placesOf .start

/-- The ids of the keys, ascending. -/
def keyIds (m : Maze) : List Int := m.keys.map fun k => (k.1.val : Int)

/-- The id that all starts share: one above the largest key, zero without keys. -/
def startId (m : Maze) : Nat :=
  match m.keys.getLast? with
  | some k => k.1.val + 1
  | none => 0

/-- The drawing of a maze, one text for each row. -/
def drawing (m : Maze) : List String :=
  m.board.toRows.map fun row => String.ofList (row.map Cell.char)

/-- The places listed for a cell are those where it stands. -/
theorem mem_placesOf {m : Maze} {c : Cell} {p : Coord} :
    p ∈ m.placesOf c ↔ m.at? p = some c := by
  simp only [placesOf, List.mem_map, List.mem_filter, decide_eq_true_eq, Prod.exists,
    Board.mem_places, at?]
  constructor
  · rintro ⟨q, v, ⟨h, rfl⟩, rfl⟩; exact h
  · intro h; exact ⟨p, c, ⟨h, rfl⟩, rfl⟩

/-- The listed keys are those that lie somewhere, each with its place. -/
theorem mem_keys {m : Maze} {k : Letter} {p : Coord} :
    (k, p) ∈ m.keys ↔ m.at? p = some (.key k) := by
  simp only [keys, List.mem_mergeSort, List.mem_filterMap, Prod.exists, Board.mem_places, at?]
  constructor
  · rintro ⟨q, c, hc, hk⟩
    cases c <;> simp_all [Cell.key?]
  · intro h
    exact ⟨p, .key k, h, rfl⟩

end Maze

/-- The letter of a key id; ids beyond the alphabet go on with the next characters. -/
def letter (i : Int) : Char := Char.ofNat (0x61 + i.toNat)

/-- The letters of an order of keys. -/
def letters (ids : List Int) : String := String.ofList (ids.map letter)

/-- The letters of an order of keys for a message, in which no letters are a dash. -/
def lettersOrDash (ids : List Int) : String := if ids.isEmpty then "-" else letters ids

end GatedMaze
