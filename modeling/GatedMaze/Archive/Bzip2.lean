import GatedMaze.Archive.Checksum
import GatedMaze.Archive.CodeTree
import GatedMaze.Archive.Recency
import GatedMaze.Archive.Runs

/-!
# Bzip2 files

Bytes with their runs shortened are cut into blocks. Each block is turned into the last column of its
sorted rotations, the bytes of this column are named by how recently they occurred, runs of the most
recent one are counted, and a symbol for the end follows. The symbols are written in groups, each with
that one of several codes that suits it best; the codes and the choices are worked out in a few rounds,
each of which improves on the one before.
-/

namespace GatedMaze.Archive

namespace Bzip2

/-- The length at which a block is full. -/
def blockLimit : Nat := 899981

/-- How many symbols a group has. -/
def groupSize : Nat := 50

/-- How often the codes are worked out. -/
def rounds : Nat := 4

/-- How many codes there are for so many symbols. -/
def codeCount (symbols : Nat) : Nat :=
  if symbols < 200 then 2 else if symbols < 600 then 3 else if symbols < 1200 then 4
  else if symbols < 2400 then 5 else 6

/-- How often each of `size` kinds of symbols occurs. -/
def countsOf (size : Nat) (symbols : List Nat) : List Nat :=
  (symbols.foldl (fun counts s => counts.modify s (· + 1)) (Array.replicate size 0)).toList

/-- How many kinds of symbols it takes, from the first one on, until `seen` of them and these make up
`goal`. -/
def reach (goal seen : Nat) : List Nat → Nat
  | [] => 0
  | c :: counts => if seen < goal then reach goal (seen + c) counts + 1 else 0

/-- How many kinds of symbols each of so many codes starts with, so that every code has about the same
share of the symbols; `codes` is how many there are in all and `left` how many symbols are left. Every
second code between the first and the last one leaves its last kind to the next. -/
def shares (codes : Nat) : Nat → List Nat → Nat → List Nat
  | 0, _, _ => []
  | others + 1, counts, left =>
    let reached := reach (left / (others + 1)) 0 counts
    let inner := others + 1 ≠ codes ∧ others ≠ 0
    let share :=
      if 2 ≤ reached ∧ inner ∧ (codes - (others + 1)) % 2 = 1 then reached - 1 else reached
    let taken := (counts.take share).foldl (· + ·) 0
    share :: shares codes others (counts.drop share) (left - taken)

/-- The widths to start with: none for the kinds of symbols that are the share of a code, and large
ones for the others. The last share is that of the first code. -/
def startWidths (size start : Nat) : List Nat → List (List Nat)
  | [] => []
  | share :: rest =>
    startWidths size (start + share) rest ++
      [(List.range size).map fun s => if start ≤ s ∧ s < start + share then 0 else 15]

/-- How many bits symbols take with codes of given widths. -/
def costOf (widths : Array Nat) (symbols : List Nat) : Nat :=
  symbols.foldl (fun n s => n + widths.getD s 0) 0

/-- The place of the first of the least numbers. -/
def leastPlace (ns : List Nat) : Nat :=
  match ns.min? with
  | none => 0
  | some n => ns.idxOf n

/-- The code that suits each group best. -/
def choices (codes : List (List Nat)) (groups : List (List Nat)) : List Nat :=
  let codes := codes.map List.toArray
  groups.map fun g => leastPlace (codes.map fun widths => costOf widths g)

/-- The widths of the codes after so many rounds, and the choices of the last round. -/
def improve (size : Nat) (groups : List (List Nat)) :
    Nat → List (List Nat) → List Nat → List (List Nat) × List Nat
  | 0, codes, chosen => (codes, chosen)
  | n + 1, codes, _ =>
    let chosen := choices codes groups
    let own (c : Nat) : List Nat :=
      ((groups.zip chosen).filter fun g => g.2 = c).flatMap (·.1)
    improve size groups n
      ((List.range codes.length).map fun c => codeWidths (countsOf size (own c))) chosen

/-- The steps from one width to another, one bit for "go on" and one for the direction each. -/
def stepsBetween (width next : Nat) : List Bool :=
  (List.replicate (next - width) [true, false]).flatten
    ++ (List.replicate (width - next) [true, true]).flatten

/-- The widths of a code: the first one, and the steps to each from the one before it. -/
def widthBits (widths : List Nat) : List Bool :=
  bitsOf 5 (widths.headD 0)
    ++ ((widths.take 1 ++ widths).zip widths).flatMap fun w => stepsBetween w.1 w.2 ++ [false]

/-- A number as so many ones, and a zero. -/
def unary (n : Nat) : List Bool := List.replicate n true ++ [false]

/-- Symbols of `size` kinds, with their codes before them. -/
def symbolBits (size : Nat) (symbols : List Nat) : List Bool :=
  let count := codeCount symbols.length
  let groups := chunks groupSize symbols
  let start := startWidths size 0 (shares count count (countsOf size symbols) symbols.length)
  let (codes, chosen) := improve size groups rounds start []
  let words := codes.map fun widths => (List.range size).map (codeOf widths) |>.toArray
  bitsOf 3 count ++ bitsOf 15 groups.length
    ++ (recency (List.range count) chosen).flatMap unary ++ codes.flatMap widthBits
    ++ (groups.zip chosen).flatMap fun g => g.1.flatMap ((words.getD g.2 #[]).getD · [])

/-- The sixteen rows of sixteen byte values: whether a row has one that is used, and for each such
row which. -/
def usedBits (used : List UInt8) : List Bool :=
  let row (r : Nat) : List Bool :=
    (List.range 16).map fun c => used.contains (UInt8.ofNat (16 * r + c))
  let rows := (List.range 16).map row
  rows.map (fun bs => bs.any id) ++ (rows.filter fun bs => bs.any id).flatten

/-- The check of the bytes of a block. -/
def checkOf (runs : List Run) : Nat := checkHigh (runs.flatMap Run.bytes)

/-- A block. -/
def blockBits (runs : List Run) : List Bool :=
  let block := (runs.flatMap Run.short).toArray
  let starts := rotations block
  let used := (List.range 256).map UInt8.ofNat |>.filter fun b => block.contains b
  let last := used.length + 1
  bitsOf 48 0x314159265359 ++ bitsOf 32 (checkOf runs) ++ [false]
    ++ bitsOf 24 (starts.idxOf 0) ++ usedBits used
    ++ symbolBits (last + 1) (countZeros 0 (recency used (lastColumn block starts)) ++ [last])

/-- The check of a file after one more block. -/
def joinChecks (sum check : Nat) : Nat :=
  ((UInt32.ofNat sum <<< 1 ||| UInt32.ofNat sum >>> 31) ^^^ UInt32.ofNat check).toNat

end Bzip2

/-- Bytes as a bzip2 file. -/
def bzip2 (bytes : List UInt8) : List UInt8 :=
  let blocks := Run.blocks Bzip2.blockLimit [] 0 (Run.ofBytes bytes)
  let sum := blocks.foldl (fun sum b => Bzip2.joinChecks sum (Bzip2.checkOf b)) 0
  bytesOf "BZh9" ++ bytesOfBits
    (blocks.flatMap Bzip2.blockBits ++ bitsOf 48 0x177245385090 ++ bitsOf 32 sum)

end GatedMaze.Archive
