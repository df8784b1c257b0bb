import GatedMaze.Planner.Crew
import GatedMaze.Planner.Subsets

/-!
# Planning

The cheapest order in which to collect all keys is found level by level. The entry of a state, a
set of held keys with the last one of them, is the cheapest leg to its last key from an entry of a
state without that key; a leg can be walked when the keys of its gates are held. Every level reads
only the one below it, and a level without entries ends the search.
-/

namespace GatedMaze

/-- What a plan is asked for: the legs there are, the keys to collect, the id of the starts and
the agents. -/
structure Problem where
  legs : LegTable
  keys : List Int
  start : Int
  crew : Crew
  /-- Whether notes of the levels are left. -/
  progress : Bool

/-- The cheapest order of the keys, and what is known about it. -/
structure Plan where
  cost : Int
  order : List Int
  agents : Nat
  keyCount : Nat
  homes : Homes
  /-- How many states were reached on the way. -/
  states : Nat
  deriving DecidableEq, Repr

/-- What the search through some levels leaves: a ledger, notes, and a fault if one stopped it. -/
structure Pass where
  ledger : Ledger
  notes : List Note
  outcome : Except Fault Unit

namespace Problem

/-- A problem with its keys sorted. -/
def ofKeys (legs : LegTable) (keys : List Int) (start : Int) (crew : Crew) (progress : Bool) :
    Problem :=
  ⟨legs, keys.mergeSort fun a b => a ≤ b, start, crew, progress⟩

/-- The entry that fetching `k` makes of an entry in which `rest` is held, if there is a leg and
the keys of its gates are held; `prev` is that entry with its last key. -/
def transition (p : Problem) (rest : IdSet) (prev : Option (Int × Entry)) (k : Int) :
    Except Fault (Option Entry) := do
  let origin ← p.crew.origin p.start prev k
  match ← p.legs.get origin k with
  | none => pure none
  | some leg =>
    if leg.gates.subset rest then
      let posts ← p.crew.advance (prev.map (·.2)) k
      let walked := match prev with | none => 0 | some (_, e) => e.cost
      pure (some ⟨walked + leg.distance, prev.map (·.1), posts⟩)
    else pure none

/-- The cheaper of two entries, the first of them when they cost the same. -/
def cheaper : Option Entry → Option Entry → Option Entry
  | none, b => b
  | some a, none => some a
  | some a, some b => if b.cost < a.cost then some b else some a

/-- The entry of the state in which `held` is held and `k` was fetched last, from the entries of
the states without `k`. -/
def resolve (p : Problem) (l : Ledger) (held : IdSet) (k : Int) : Except Fault (Option Entry) := do
  let rest ← held.erase k
  if rest.isEmpty then p.transition rest none k
  else
    rest.toList.foldlM
      (fun best j =>
        match l.get? ⟨rest, j⟩ with
        | none => pure best
        | some prev => (p.transition rest (some (j, prev)) k).map (cheaper best))
      none

/-- Resolves states in turn and writes their entries, counting them. What was written before a
fault stays. -/
def fillStates (p : Problem) : List State → Nat → Ledger → Ledger × Except Fault Nat
  | [], n, l => (l, .ok n)
  | s :: states, n, l =>
    match p.resolve l s.held s.last with
    | .error e => (l, .error e)
    | .ok none => p.fillStates states n l
    | .ok (some entry) => p.fillStates states (n + 1) (l.put s entry).1

/-- The states in which exactly `held` is held. -/
def statesOf (held : IdSet) : List State := held.toList.map fun k => ⟨held, k⟩

/-- Resolves all states with so many keys. -/
def fillLevel (p : Problem) (size : Nat) (l : Ledger) : Ledger × Except Fault Nat :=
  let found := subsetsOfSize p.keys size
  match p.fillStates (found.subsets.flatMap statesOf) 0 l, found.fault with
  | (l, .ok _), some e => (l, .error e)
  | result, _ => result

/-- Resolves levels in turn, up to the first one without entries. -/
def fillLevels (p : Problem) : List Nat → Ledger → Pass
  | [], l => ⟨l, [], .ok ()⟩
  | size :: sizes, l =>
    match p.fillLevel size l with
    | (l, .error e) => ⟨l, [], .error e⟩
    | (l, .ok n) =>
      -- the note of a level without entries is left too
      let notes := if p.progress then [Note.level size p.keys.length n] else []
      if n = 0 then ⟨l, notes, .ok ()⟩
      else
        let pass := p.fillLevels sizes l
        { pass with notes := notes ++ pass.notes }

/-- The cheapest of the states in which exactly `full` is held, the first of them by its last key
when several cost the same. -/
def cheapestEnd (l : Ledger) (full : IdSet) : Option (Int × Entry) :=
  full.toList.foldl
    (fun best k =>
      match l.get? ⟨full, k⟩, best with
      | none, _ => best
      | some e, none => some (k, e)
      | some e, some b => if e.cost < b.2.cost then some (k, e) else best)
    none

end Problem

/-- The keys in the order in which they were picked up on the way into a state, last one first. -/
def Ledger.trail (l : Ledger) (held : IdSet) (k : Int) : List Int :=
  match l.get? ⟨held, k⟩ with
  | some ⟨_, some j, _⟩ =>
    if _h : 0 ≤ k ∧ held.mask.testBit k.toNat = true then
      k :: l.trail (held.drop k.toNat) j
    else [k]
  | _ => [k]
termination_by held.mask
decreasing_by exact IdSet.mask_drop_lt _h.2

/-- The keys in the order in which they were picked up on the way into a state. -/
def Ledger.orderInto (l : Ledger) (held : IdSet) (k : Int) : List Int := (l.trail held k).reverse

/-- A problem with the entries that were found so far. -/
structure Planner where
  problem : Problem
  ledger : Ledger

namespace Planner

/-- A planner that has found nothing yet. -/
def ofProblem (p : Problem) : Planner := ⟨p, .empty⟩

/-- A planner with no entries. -/
def cleared (w : Planner) : Planner := { w with ledger := .empty }

/-- The entry of a state, worked out anew and not written. -/
def resolve (w : Planner) (held : IdSet) (k : Int) : Except Fault (Option Entry) :=
  w.problem.resolve w.ledger held k

/-- A plan for the problem at hand. -/
def planOf (w : Planner) (cost : Int) (order : List Int) (states : Nat) : Plan where
  cost := cost
  order := order
  agents := w.problem.crew.size
  keyCount := w.problem.keys.length
  homes := w.problem.crew.homes
  states := states

/-- Reads the plan off a ledger in which all levels are filled. -/
def conclude (w : Planner) : Except Fault Plan := do
  let full ← IdSet.ofList w.problem.keys
  match Problem.cheapestEnd w.ledger full with
  | none => throw (.impasse (.noOrder w.problem.keys.length))
  | some (k, e) => pure (w.planOf e.cost (w.ledger.orderInto full k) w.ledger.size)

/-- Finds the cheapest plan. Afterwards the entries stay if `keep` says so or a fault cut the
search short; they go when there is no plan. -/
def solve (w : Planner) (keep : Bool) : Planner × Noted Note Plan :=
  let n := w.problem.keys.length
  if n = 0 then (w, ⟨[], .ok (w.planOf 0 [] 0)⟩)
  else
    let pass := w.problem.fillLevels (List.range' 1 n) w.ledger
    let w := { w with ledger := pass.ledger }
    match pass.outcome with
    | .error e => (w, ⟨pass.notes, .error e⟩)
    | .ok () =>
      match w.conclude with
      | .error e => (w.cleared, ⟨pass.notes, .error e⟩)
      | .ok plan => (if keep then w else w.cleared, ⟨pass.notes, .ok plan⟩)

end Planner

end GatedMaze
