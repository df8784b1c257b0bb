/-!
# Sorted rotations and recent bytes

The rotations of a block are sorted, and the last column of the sorted rows is kept: bytes that stand
before the same text come together in it. Each of them is then named by how many other bytes occurred
since it occurred last, and runs of the most recent one are counted.
-/

namespace GatedMaze.Archive

/-- Whether the rotation of a block that starts at one place comes before that at another, or is
equal to it, by the next so many bytes. -/
def rotationLe (block : Array UInt8) : Nat → Nat → Nat → Bool
  | 0, _, _ => true
  | n + 1, i, j =>
    let a := block.getD i 0
    let b := block.getD j 0
    if a = b then rotationLe block n ((i + 1) % block.size) ((j + 1) % block.size) else a < b

/-- The places at which the rotations of a block start, in the order of the rotations. -/
def rotations (block : Array UInt8) : List Nat :=
  (List.range block.size).mergeSort (rotationLe block block.size)

/-- The last bytes of rotations that start at given places. -/
def lastColumn (block : Array UInt8) (starts : List Nat) : List UInt8 :=
  starts.map fun i => block.getD ((i + block.size - 1) % block.size) 0

/-- Each item as its place among `recent`, the items by how recently they occurred. -/
def recency {α : Type} [BEq α] (recent : List α) : List α → List Nat
  | [] => []
  | a :: rest => recent.idxOf a :: recency (a :: recent.erase a) rest

/-- A number in base two with the digits one and two, the least first; each digit is one less here. -/
def bijectiveDigits (n : Nat) : List Nat :=
  if n = 0 then []
  else if n % 2 = 1 then 0 :: bijectiveDigits (n / 2)
  else 1 :: bijectiveDigits (n / 2 - 1)

/-- Places with runs of zeros counted by the symbols 0 and 1, and all others one higher. -/
def countZeros (run : Nat) : List Nat → List Nat
  | [] => bijectiveDigits run
  | 0 :: places => countZeros (run + 1) places
  | p :: places => bijectiveDigits run ++ (p + 1) :: countZeros 0 places

end GatedMaze.Archive
