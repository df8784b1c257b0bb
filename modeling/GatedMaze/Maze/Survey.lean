import GatedMaze.Leg
import GatedMaze.Maze.Search
import GatedMaze.Progress

/-!
# The legs of a maze

One search from every key and every start gives the legs between them. All starts go by one id, so
two starts that a walk joins would be confused: such a maze is refused.
-/

namespace GatedMaze.Maze

/-- The id of the landmark at a place: that of a key, or the one that all starts share. -/
def landmark? (m : Maze) (p : Coord) : Option Int :=
  match m.at? p with
  | some (.key k) => some k.val
  | some .start => some m.startId
  | _ => none

/-- The table with the legs from `origin` to the landmarks of visits written in, in turn. -/
def recordLegs (m : Maze) (origin : Int) (visits : List Visit) (t : LegTable) :
    Except Fault LegTable :=
  visits.foldlM
    (fun t v =>
      match m.landmark? v.place with
      | none => .ok t
      | some id => if id = origin then .ok t else t.set origin id (some ⟨v.moves, v.gates⟩))
    t

/-- A search from a landmark: the table with its legs, and the starts it came to. -/
def surveyFrom (m : Maze) (origin : Int) (p : Coord) (t : LegTable) :
    Except Fault (LegTable × List Coord) :=
  -- the first visit is the origin itself
  let visits := (m.search p).tail
  (m.recordLegs origin visits t).map fun t =>
    (t, (visits.map Visit.place).filter fun q => m.at? q = some .start)

/-- A search from a start, which must not come to another start. -/
def surveyStart (m : Maze) (t : LegTable) (p : Coord) : Except Fault LegTable := do
  match ← m.surveyFrom m.startId p t with
  | (t, []) => pure t
  | (_, q :: _) => throw (.defectAt (.sharedRegion p q) q)

/-- A search from a key. -/
def surveyKey (m : Maze) (t : LegTable) (k : Letter × Coord) : Except Fault LegTable :=
  (m.surveyFrom k.1.val k.2 t).map (·.1)

/-- The legs between the landmarks of a maze: first those of each key, then those of each start. -/
def legs (m : Maze) : Except Fault LegTable := do
  let t ← m.keys.foldlM m.surveyKey (PairTable.replicate (m.startId + 1) none)
  m.starts.foldlM m.surveyStart t

/-- The legs of a maze, with a note of how many there are. -/
def notedLegs (m : Maze) : Noted Note LegTable := do
  let t ← Noted.ofExcept m.legs
  Noted.note (.pairs m.keys.length m.starts.length t.count)
  pure t

end GatedMaze.Maze
