/-!
# Runs of bytes

Bytes are cut into runs of equal ones. A run of four or more is written as four of its bytes and the
number of those left out, which has to fit into one byte. Runs are then gathered into blocks.
-/

namespace GatedMaze.Archive

/-- A byte that stands so many times in a row. -/
structure Run where
  byte : UInt8
  count : Nat
  deriving DecidableEq, Repr

namespace Run

/-- The longest run: four bytes and as many more as one byte can count. -/
def longest : Nat := 255

/-- The bytes of a run. -/
def bytes (r : Run) : List UInt8 := List.replicate r.count r.byte

/-- The bytes that a run is written as. -/
def short (r : Run) : List UInt8 :=
  if r.count < 4 then r.bytes else List.replicate 4 r.byte ++ [UInt8.ofNat (r.count - 4)]

/-- The runs of bytes of which the first one is the end of a run that stands in `r` so far. -/
def extend (r : Run) : List UInt8 → List Run
  | [] => [r]
  | b :: bs =>
    if b = r.byte ∧ r.count < longest then extend { r with count := r.count + 1 } bs
    else r :: extend ⟨b, 1⟩ bs

/-- The runs of bytes. -/
def ofBytes : List UInt8 → List Run
  | [] => []
  | b :: bs => extend ⟨b, 1⟩ bs

/-- Runs in blocks: a block ends with the run that makes it at least `limit` bytes long. `block` is
the one at hand, its last run first, and `width` its length. -/
def blocks (limit : Nat) (block : List Run) (width : Nat) : List Run → List (List Run)
  | [] => if block.isEmpty then [] else [block.reverse]
  | r :: rs =>
    let width := width + r.short.length
    if limit ≤ width then (r :: block).reverse :: blocks limit [] 0 rs
    else blocks limit (r :: block) width rs

end Run

end GatedMaze.Archive
