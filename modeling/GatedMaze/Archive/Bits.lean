import GatedMaze.Archive.Field

/-!
# Fields of single bits

Some archives are written bit by bit, the greatest bit of each number and of each byte first.
-/

namespace GatedMaze.Archive

/-- A number in so many bits, the greatest first. -/
def bitsOf : Nat → Nat → List Bool
  | 0, _ => []
  | width + 1, n => n.testBit width :: bitsOf width n

/-- The number that bits write after one that is already read, the greatest bit first. -/
def bitsValue (start : Nat) (bits : List Bool) : Nat :=
  bits.foldl (fun n b => 2 * n + b.toNat) start

/-- Bits as bytes, the greatest bit of each first; zeros fill the last byte. -/
def bytesOfBits (bits : List Bool) : List UInt8 :=
  (chunks 8 bits).map fun bs =>
    UInt8.ofNat (bitsValue 0 (bs ++ List.replicate (8 - bs.length) false))

end GatedMaze.Archive
