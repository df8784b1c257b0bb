import GatedMaze.Archive.Bits

/-!
# Codes of many widths

A symbol that occurs often gets a short code. The two lightest trees are joined until one is left,
and the way to a symbol in it is as long as its code. Which of several trees of one weight counts as
the lightest is settled by their heights, and then by where they lie in a heap. Codes of one width are
consecutive numbers in the order of their symbols.
-/

namespace GatedMaze.Archive

/-- A tree with symbols at its leaves. -/
inductive CodeTree where
  | leaf (symbol : Nat)
  | join (left right : CodeTree)
  deriving Repr

namespace CodeTree

/-- Each symbol of a tree that hangs at a depth, with its own depth. -/
def depths (depth : Nat) : CodeTree → List (Nat × Nat)
  | leaf s => [(s, depth)]
  | join l r => l.depths (depth + 1) ++ r.depths (depth + 1)

end CodeTree

/-- A tree with its weight: how often its symbols occur in all. -/
structure WeightedTree where
  weight : Nat
  height : Nat
  tree : CodeTree
  deriving Repr

namespace WeightedTree

/-- Whether a tree is lighter than another, or as light and lower. -/
def lighter (a b : WeightedTree) : Bool :=
  a.weight < b.weight || (a.weight == b.weight && a.height < b.height)

/-- Two trees as the branches of one. -/
def join (a b : WeightedTree) : WeightedTree :=
  ⟨a.weight + b.weight, max a.height b.height + 1, .join a.tree b.tree⟩

/-- Moves the tree at a place of a heap up, past all heavier ones above it. -/
def lift (heap : Array WeightedTree) (i : Nat) : Array WeightedTree :=
  if h : 0 < i ∧ i < heap.size then
    have : (i - 1) / 2 < heap.size := by omega
    if heap[i].lighter heap[(i - 1) / 2] then lift (heap.swap i ((i - 1) / 2)) ((i - 1) / 2)
    else heap
  else heap
termination_by i

/-- The lighter one of the two places below a place of a heap, the left one if both are as light. -/
def below (heap : Array WeightedTree) (i : Nat) : Nat :=
  if h : 2 * i + 2 < heap.size then
    if heap[2 * i + 2].lighter heap[2 * i + 1] then 2 * i + 2 else 2 * i + 1
  else 2 * i + 1

theorem lt_below (heap : Array WeightedTree) (i : Nat) : i < below heap i := by
  unfold below
  split
  · split <;> omega
  · omega

/-- Moves the tree at a place of a heap down, past all below it that are not heavier. -/
def sink (heap : Array WeightedTree) (i : Nat) : Array WeightedTree :=
  if h : below heap i < heap.size then
    have := lt_below heap i
    if heap[i].lighter heap[below heap i] then heap
    else sink (heap.swap i (below heap i)) (below heap i)
  else heap
termination_by heap.size - i
decreasing_by
  have := lt_below heap i
  rw [Array.size_swap]
  omega

/-- A heap with one more tree. -/
def put (heap : Array WeightedTree) (t : WeightedTree) : Array WeightedTree :=
  lift (heap.push t) heap.size

/-- The lightest tree of a heap, and the heap without it. -/
def takeLightest (heap : Array WeightedTree) : Option (WeightedTree × Array WeightedTree) :=
  if h : 0 < heap.size then
    some (heap[0], sink (heap.swap 0 (heap.size - 1)).pop 0)
  else none

/-- Joins the two lightest trees of a heap, so many times. -/
def joinLightest : Nat → Array WeightedTree → Array WeightedTree
  | 0, heap => heap
  | n + 1, heap =>
    match takeLightest heap with
    | none => heap
    | some (a, rest) =>
      match takeLightest rest with
      | none => heap
      | some (b, rest) => joinLightest n (put rest (join a b))

/-- The trees of single symbols with given weights, the first one that of symbol 0. -/
def leaves (weights : List Nat) : List WeightedTree :=
  weights.zipIdx.map fun (w, s) => ⟨w, 0, .leaf s⟩

end WeightedTree

/-- How wide the codes of symbols with given weights are. -/
def widthsOf (weights : List Nat) : List Nat :=
  let heap := (WeightedTree.leaves weights).foldl WeightedTree.put #[]
  let depths := match (WeightedTree.joinLightest (weights.length - 1) heap)[0]? with
    | none => []
    | some t => t.tree.depths 0
  (List.range weights.length).map fun s => (depths.lookup s).getD 0

/-- The widest code. -/
def widestCode : Nat := 17

/-- How wide the codes of symbols with given weights are, once the weights are brought together so
far, in so many steps at most, that no code is too wide. -/
def fitWidths : Nat → List Nat → List Nat
  | 0, weights => widthsOf weights
  | steps + 1, weights =>
    let widths := widthsOf weights
    if widths.all (· ≤ widestCode) then widths
    else fitWidths steps (weights.map fun w => 1 + w / 2)

/-- How wide the codes of symbols are that occur so often. A symbol that does not occur is taken to
occur once. -/
def codeWidths (counts : List Nat) : List Nat := fitWidths 32 (counts.map (max 1))

/-- The first code of a width. -/
def firstCode (widths : List Nat) : Nat → Nat
  | 0 => 0
  | width + 1 => 2 * (firstCode widths width + widths.count width)

/-- The code of a symbol. -/
def codeOf (widths : List Nat) (symbol : Nat) : List Bool :=
  let width := widths.getD symbol 0
  bitsOf width (firstCode widths width + (widths.take symbol).count width)

end GatedMaze.Archive
