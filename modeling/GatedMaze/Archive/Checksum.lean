/-!
# Cyclic redundancy checks

The check of bytes is the remainder of their bits, read as a polynomial, by one of degree 32. The
bits of each byte are taken from the least on or from the greatest on; the polynomial is the same.
-/

namespace GatedMaze.Archive

/-- The remainder after one more bit has moved out at the low end. -/
def shiftLow (c : UInt32) : UInt32 := if c &&& 1 = 1 then (c >>> 1) ^^^ 0xEDB88320 else c >>> 1

/-- The remainder after one more bit has moved out at the high end. -/
def shiftHigh (c : UInt32) : UInt32 :=
  if c >>> 31 = 1 then (c <<< 1) ^^^ 0x04C11DB7 else c <<< 1

/-- The remainder after eight bits. -/
def shiftByte (shift : UInt32 → UInt32) (c : UInt32) : UInt32 :=
  (List.range 8).foldl (fun c _ => shift c) c

/-- The check of bytes that takes the least bit of each first. -/
def checkLow (bytes : List UInt8) : Nat :=
  let step (c : UInt32) (b : UInt8) : UInt32 := shiftByte shiftLow (c ^^^ b.toUInt32)
  let rest := bytes.foldl step 0xFFFFFFFF
  (rest ^^^ 0xFFFFFFFF).toNat

/-- The check of bytes that takes the greatest bit of each first. -/
def checkHigh (bytes : List UInt8) : Nat :=
  let step (c : UInt32) (b : UInt8) : UInt32 := shiftByte shiftHigh (c ^^^ b.toUInt32.shiftLeft 24)
  let rest := bytes.foldl step 0xFFFFFFFF
  (rest ^^^ 0xFFFFFFFF).toNat

end GatedMaze.Archive
