import GatedMaze.IdSet
import Std.Data.TreeMap

/-!
# The ledger of a plan

A state of the search for a plan is the set of keys held and the key picked up last. The ledger
keeps the cheapest known way into each state, on one shelf for each number of keys held. Main
statements:

* `get?_put`: an entry replaces another one of its state exactly when it is cheaper;
* `put_snd`: a write says whether it was taken.
-/

namespace GatedMaze

/-- Exactly the keys in `held` are held, and `last` was picked up last. -/
structure State where
  held : IdSet
  last : Int
  deriving DecidableEq, Repr

/-- How a state was reached: the moves made, the key picked up before the last one, and for
several agents the last key of each. -/
structure Entry where
  cost : Int
  before : Option Int
  posts : List (Option Int)
  deriving DecidableEq, Repr

/-- The entries of the states with one number of keys; `order` lists these states, the newest
first. -/
structure Shelf where
  order : List State
  best : Std.TreeMap Nat (Std.TreeMap Int Entry)

namespace Shelf

/-- The shelf without entries. -/
def empty : Shelf := ⟨[], ∅⟩

/-- The entry of a state. -/
def get? (shelf : Shelf) (s : State) : Option Entry :=
  shelf.best[s.held.mask]?.bind fun row => row[s.last]?

/-- The shelf with the entry of a state written, whatever was there. -/
def write (shelf : Shelf) (s : State) (e : Entry) : Std.TreeMap Nat (Std.TreeMap Int Entry) :=
  shelf.best.insert s.held.mask ((shelf.best[s.held.mask]?.getD ∅).insert s.last e)

/-- The shelf with an entry added or replaced. -/
def replace (shelf : Shelf) (s : State) (e : Entry) : Shelf where
  order := if (shelf.get? s).isSome then shelf.order else s :: shelf.order
  best := shelf.write s e

/-- The states with their entries, in the order in which the states came first. -/
def items (shelf : Shelf) : List (State × Entry) :=
  shelf.order.reverse.filterMap fun s => (shelf.get? s).map fun e => (s, e)

theorem get?_replace {shelf : Shelf} {s t : State} {e : Entry} :
    (shelf.replace s e).get? t = if s = t then some e else shelf.get? t := by
  simp only [get?, replace, write, Std.TreeMap.getElem?_insert, Std.compare_eq_iff_eq]
  -- the two states lie in one row of the shelf when the same keys are held
  by_cases hm : s.held.mask = t.held.mask
  · simp only [if_pos hm, Option.bind_some, Std.TreeMap.getElem?_insert, Std.compare_eq_iff_eq]
    by_cases hl : s.last = t.last
    · have hst : s = t := by
        cases s with | mk a b => cases t with | mk c d =>
        cases a; cases c; simp_all
      rw [if_pos hl, if_pos hst]
    · have hst : s ≠ t := fun h => hl (congrArg State.last h)
      rw [if_neg hl, if_neg hst, hm]
      cases shelf.best[t.held.mask]? <;> simp
  · have hst : s ≠ t := fun h => hm (congrArg (·.held.mask) h)
    rw [if_neg hm, if_neg hst]

end Shelf

/-- The shelves by the number of keys held. -/
structure Ledger where
  shelves : Std.TreeMap Nat Shelf

namespace Ledger

/-- The ledger without entries. -/
def empty : Ledger := ⟨∅⟩

/-- The states with so many keys and their entries, in the order in which the states came. -/
def level (l : Ledger) (size : Nat) : List (State × Entry) :=
  (l.shelves[size]?.map Shelf.items).getD []

/-- The entry of a state. -/
def get? (l : Ledger) (s : State) : Option Entry :=
  l.shelves[s.held.size]?.bind fun shelf => shelf.get? s

/-- Whether an entry would be taken: its state has none yet, or only dearer ones. -/
def accepts (l : Ledger) (s : State) (e : Entry) : Bool :=
  match l.get? s with
  | none => true
  | some hit => e.cost < hit.cost

/-- The ledger after an entry was offered, and whether it was taken. -/
def put (l : Ledger) (s : State) (e : Entry) : Ledger × Bool :=
  if l.accepts s e then
    let shelf := l.shelves[s.held.size]?.getD .empty
    (⟨l.shelves.insert s.held.size (shelf.replace s e)⟩, true)
  else (l, false)

/-- All states with their entries, by the number of keys held. -/
def items (l : Ledger) : List (State × Entry) := l.shelves.toList.flatMap fun v => v.2.items

/-- How many states have an entry. -/
def size (l : Ledger) : Nat := (l.shelves.toList.flatMap fun v => v.2.order).length

/-- A write says whether it was taken. -/
theorem put_snd (l : Ledger) (s : State) (e : Entry) : (l.put s e).2 = l.accepts s e := by
  unfold put; split <;> simp_all

/-- **An entry replaces another one of its state exactly when it is cheaper.** -/
theorem get?_put {l : Ledger} {s t : State} {e : Entry} :
    (l.put s e).1.get? t = if s = t ∧ l.accepts s e = true then some e else l.get? t := by
  unfold put
  split
  · next ha =>
    simp only [get?, Std.TreeMap.getElem?_insert, Std.compare_eq_iff_eq, ha, and_true]
    by_cases hz : s.held.size = t.held.size
    · rw [if_pos hz, Option.bind_some, Shelf.get?_replace]
      split
      · rfl
      · rw [hz]
        cases l.shelves[t.held.size]? <;> simp [Shelf.empty, Shelf.get?]
    · have hst : s ≠ t := fun h => hz (congrArg (·.held.size) h)
      rw [if_neg hz, if_neg hst]
  · next ha => simp [ha]

end Ledger

end GatedMaze
