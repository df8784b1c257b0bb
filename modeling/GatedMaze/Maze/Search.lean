import GatedMaze.IdSet
import GatedMaze.Maze

/-!
# Searching a maze

From its origin a search goes out in the order of a queue: what was found first is served first, and
its neighbours are found next. Every place is visited once, by the first walk that finds it, and keeps
the gates on that walk; gates do not hold a search up. Main statement:

* `free_fresh`: each visit that joins the queue uses up one free mark, so the search ends.
-/

namespace GatedMaze

/-- A place that a search has reached, after so many moves and through these gates. -/
structure Visit where
  place : Coord
  moves : Nat
  gates : IdSet
  deriving DecidableEq, Repr

namespace Visit

/-- How many places no visit has marked. -/
def free (marks : Board Bool) : Nat := marks.cells.count false

theorem free_set {marks : Board Bool} {p : Coord} (h : marks.get? p = some false) :
    free (marks.set p true) + 1 = free marks := by
  have hp : marks.Holds p := Board.isSome_get?.1 (by simp [h])
  -- the write turns one `false` among the marks into `true`
  have hlt := Board.slot_lt hp
  rw [Board.get?_of_holds hp, Array.getElem?_eq_getElem hlt, Option.some.injEq] at h
  have hc : (marks.set p true).cells = marks.cells.set (marks.slot p) true hlt := by
    have : (marks.set p true).cells = marks.cells.setIfInBounds (marks.slot p) true := if_pos hp
    rw [this, Array.setIfInBounds, dif_pos hlt]
  have hpos : 0 < marks.cells.count false := by
    rw [Array.count_pos_iff, ← h]; exact Array.getElem_mem hlt
  rw [free, hc, Array.count_set]
  simp only [h, beq_self_eq_true, if_true, free]
  simp
  omega

/-- Of the visits to unmarked places the first to each, and the marks with those places added. -/
def fresh : Board Bool → List Visit → Board Bool × List Visit
  | marks, [] => (marks, [])
  | marks, v :: vs =>
    if marks.get? v.place = some false then
      let r := fresh (marks.set v.place true) vs
      (r.1, v :: r.2)
    else fresh marks vs

/-- **Each visit that is kept uses up one free mark.** -/
theorem free_fresh (marks : Board Bool) (vs : List Visit) :
    free (fresh marks vs).1 + (fresh marks vs).2.length = free marks := by
  induction vs generalizing marks with
  | nil => rfl
  | cons v vs ih =>
    unfold fresh
    split
    · next h =>
      have := ih (marks.set v.place true)
      have := free_set h
      simp only [List.length_cons]
      omega
    · exact ih marks

end Visit

namespace Maze

/-- The visit that one more move makes of a visit, unless it runs into a wall or off the board. -/
def go? (m : Maze) (v : Visit) (d : Move) : Option Visit :=
  match m.at? (v.place.step d) with
  | none => none
  | some .wall => none
  | some (.gate g) => some ⟨v.place.step d, v.moves + 1, v.gates.add g⟩
  | some _ => some ⟨v.place.step d, v.moves + 1, v.gates⟩

/-- The visits one move further on, in the order of the moves. -/
def neighbours (m : Maze) (v : Visit) : List Visit := Move.all.filterMap (m.go? v)

/-- The visits that wait in a queue, and all that are made from them. The first one that waits is served
first; its neighbours that are not marked yet are marked and wait behind all others. -/
def serve (m : Maze) (marks : Board Bool) : List Visit → List Visit
  | [] => []
  | v :: queue =>
    let found := Visit.fresh marks (m.neighbours v)
    v :: m.serve found.1 (queue ++ found.2)
termination_by queue => Visit.free marks + queue.length
decreasing_by
  have := Visit.free_fresh marks (m.neighbours v)
  simp only [List.length_append, List.length_cons]
  omega

/-- Every place that a walk joins to the origin, in the order in which a search reaches it. -/
def search (m : Maze) (origin : Coord) : List Visit :=
  m.serve ((Board.replicate m.board.rows m.board.cols false).set origin true)
    [⟨origin, 0, .empty⟩]

end Maze

end GatedMaze
