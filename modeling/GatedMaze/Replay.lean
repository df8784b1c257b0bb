import GatedMaze.Leg
import GatedMaze.Quadrants

/-!
# Walking an order of keys

An order of keys is judged by walking it: each key is fetched from the key before it, or, when
keys have quadrants, from the key before it in its own quadrant. The walk fails at a key that is
fetched twice, at a pair without a leg and at a leg with a gate whose key is not held yet.
-/

namespace GatedMaze

/-- One key fetched. -/
structure Pickup where
  key : Int
  origin : Int
  distance : Int
  gates : List Int
  quadrant : Option Int
  deriving DecidableEq, Repr

/-- Where a walk stands: the keys held, the last key of each quadrant, the last key of all (the
start before any) and the moves made. -/
structure Walker where
  held : IdSet
  lastIn : Homes
  last : Int
  walked : Int
  deriving DecidableEq, Repr

/-- A walk along a whole order. -/
structure Replay where
  cost : Int
  pickups : List Pickup
  collected : List Int
  deriving DecidableEq, Repr

namespace Walker

/-- A walker that sets out. -/
def atStart (start : Int) : Walker := ⟨.empty, .empty, start, 0⟩

/-- The quadrant of a key, when keys have quadrants. -/
def quadrantOf (homes : Option Homes) (k : Int) : Except Fault (Option Int) :=
  match homes with
  | none => .ok none
  | some h =>
    match h.of? k with
    | some q => .ok (some q)
    | none => .error (.homeless k)

/-- Where the next key of a quadrant is fetched from. -/
def originIn (w : Walker) (start : Int) : Option Int → Int
  | none => w.last
  | some q => (w.lastIn.of? q).getD start

/-- Fetches one key. -/
def fetch (legs : LegTable) (start : Int) (homes : Option Homes) (w : Walker) (k : Int) :
    Except Fault (Walker × Pickup) := do
  if w.held.contains k then throw (.impasse (.repeated k))
  let quadrant ← quadrantOf homes k
  let origin := w.originIn start quadrant
  let leg ← legs.require origin k
  -- every gate of the leg must be open by now
  if !leg.gates.subset w.held then
    throw (.impasse (.locked k origin (leg.gates.toList.filter fun g => !w.held.contains g)))
  let held ← w.held.insert k
  pure
    ({ held := held
       lastIn := match quadrant with | none => w.lastIn | some q => w.lastIn.assign q k
       last := k
       walked := w.walked + leg.distance },
     ⟨k, origin, leg.distance, leg.gates.toList, quadrant⟩)

/-- Fetches keys in turn, with a note of each. -/
def fetchAll (legs : LegTable) (start : Int) (homes : Option Homes) :
    Walker → List Int → Noted Note (Walker × List Pickup)
  | w, [] => pure (w, [])
  | w, k :: ks => do
    let (w, pickup) ← Noted.ofExcept (w.fetch legs start homes k)
    Noted.note (.pickup pickup.origin pickup.key pickup.distance w.walked)
    let (w, pickups) ← fetchAll legs start homes w ks
    pure (w, pickup :: pickups)

end Walker

/-- Walks an order of keys. -/
def replay (legs : LegTable) (start : Int) (order : List Int) (homes : Option Homes) :
    Noted Note Replay := do
  let (w, pickups) ← Walker.fetchAll legs start homes (.atStart start) order
  pure ⟨w.walked, pickups, w.held.toList⟩

/-- Walks an order of keys and writes each step down as it is made, as long as its numbers can be
written. -/
def replayInWriting (legs : LegTable) (start : Int) (order : List Int) (homes : Option Homes) :
    Noted Note Replay :=
  (replay legs start order homes).writable

end GatedMaze
