/-!
# Fields of archives

Archives hold numbers in a fixed number of bytes, the least or the greatest byte first, and end
their parts at multiples of a size.
-/

namespace GatedMaze.Archive

/-- A number in so many bytes, the least byte first. -/
def littleEndian : Nat → Nat → List UInt8
  | 0, _ => []
  | width + 1, n => UInt8.ofNat n :: littleEndian width (n / 256)

/-- A number in so many bytes, the greatest byte first. -/
def bigEndian (width n : Nat) : List UInt8 := (littleEndian width n).reverse

/-- The bytes of a text. -/
def bytesOf (text : String) : List UInt8 := text.toUTF8.toList

/-- Bytes with zeros after them up to a multiple of `size`. -/
def padded (size : Nat) (bytes : List UInt8) : List UInt8 :=
  bytes ++ List.replicate ((size - bytes.length % size) % size) 0

/-- Bytes with zeros after them up to a width, cut off there. -/
def fixed (width : Nat) (bytes : List UInt8) : List UInt8 :=
  bytes.take width ++ List.replicate (width - bytes.length) 0

/-- Pieces of so many items, the last one possibly shorter. -/
def chunks {α : Type} (size : Nat) (xs : List α) : List (List α) :=
  if _h : size = 0 ∨ xs = [] then []
  else xs.take size :: chunks size (xs.drop size)
termination_by xs.length
decreasing_by
  have : xs.length ≠ 0 := fun e => _h (.inr (List.length_eq_zero_iff.1 e))
  rw [List.length_drop]
  omega

end GatedMaze.Archive
