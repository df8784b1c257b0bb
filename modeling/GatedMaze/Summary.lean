import GatedMaze.Decimal.Shortest
import GatedMaze.Planner

/-!
# Summaries of several plans

Means and medians are whole numbers where they can be. A quotient that is not whole, and every
median of two middle values, is rounded to double precision; one beyond the largest double is
refused.
-/

namespace GatedMaze

/-- A number in a summary. -/
inductive Figure where
  | whole (n : Int)
  /-- The double nearest to `n / d`. -/
  | quotient (n : Int) (d : Nat)
  deriving DecidableEq, Repr

/-- A figure as text: a rounded quotient always has a point or an exponent. -/
def Figure.text : Figure → String
  | whole n => toString n
  | quotient n d => Decimal.quotientText n d

/-- A quotient as a figure. -/
def Figure.ofQuotient (n : Int) (d : Nat) : Except Fault Figure :=
  if (Decimal.nearest n.natAbs d).isFinite then .ok (.quotient n d) else .error .quotientTooLarge

/-- The sum of whole numbers. -/
def total (xs : List Int) : Int := xs.foldl (· + ·) 0

/-- The mean, whole when it is exact. -/
def mean? (xs : List Int) : Except Fault (Option Figure) :=
  if xs.isEmpty then .ok none
  else if total xs % xs.length = 0 then .ok (some (.whole (total xs / xs.length)))
  else (Figure.ofQuotient (total xs) xs.length).map some

/-- The middle value, or the mean of the two middle values as a quotient. -/
def median? (xs : List Int) : Except Fault (Option Figure) :=
  let ys := xs.mergeSort fun a b => a ≤ b
  -- of an even number of values `i` is the upper of the two middle places
  let i := ys.length / 2
  if ys.length % 2 = 1 then .ok (ys[i]?.map .whole)
  else
    match ys[i - 1]?, ys[i]? with
    | some a, some b => (Figure.ofQuotient (a + b) 2).map some
    | _, _ => .ok none

/-- What several plans have in common. -/
structure Summary where
  mazes : Nat
  meanCost : Option Figure
  medianCost : Option Figure
  maxCost : Option Int
  meanKeys : Option Figure
  totalStates : Int
  deriving DecidableEq, Repr

/-- What one plan adds to a summary: its moves, its keys and the states reached. -/
structure Tally where
  cost : Int
  keys : Int
  states : Int
  deriving DecidableEq, Repr

/-- The tally of a plan. -/
def Plan.tally (p : Plan) : Tally := ⟨p.cost, p.keyCount, p.states⟩

/-- The summary of plans. -/
def summarize (ts : List Tally) : Except Fault Summary := do
  let costs := ts.map (·.cost)
  pure
    { mazes := ts.length
      meanCost := (← mean? costs)
      medianCost := (← median? costs)
      maxCost := costs.max?
      meanKeys := (← mean? (ts.map (·.keys)))
      totalStates := total (ts.map (·.states)) }

/-- A figure that may be missing. -/
def Figure.textOrNone (f : Option Figure) : String := (f.map Figure.text).getD "None"

/-- A summary as one line of names and figures. -/
def Summary.text (s : Summary) : String :=
  let fields :=
    [("mazes", toString s.mazes), ("mean_cost", Figure.textOrNone s.meanCost),
     ("median_cost", Figure.textOrNone s.medianCost),
     ("max_cost", Figure.textOrNone (s.maxCost.map .whole)),
     ("mean_keys", Figure.textOrNone s.meanKeys), ("total_states", toString s.totalStates)]
  "\x7b" ++ ", ".intercalate (fields.map fun f => "'" ++ f.1 ++ "': " ++ f.2) ++ "\x7d"

end GatedMaze
