import GatedMaze.Archive.Checksum
import GatedMaze.Archive.Field

/-!
# Xz files

One block whose only filter holds the bytes as they are, in chunks of up to 65536, and an index with
one record.
-/

namespace GatedMaze.Archive

/-- A number in as many groups of seven bits as it needs, the least group first. -/
def sevenBits (n : Nat) : List UInt8 :=
  if n < 128 then [UInt8.ofNat n] else UInt8.ofNat (n % 128 + 128) :: sevenBits (n / 128)

/-- A chunk of bytes as they are; the first one starts anew. -/
def xzChunk (first : Bool) (bytes : List UInt8) : List UInt8 :=
  (if first then 1 else 2) :: bigEndian 2 (bytes.length - 1) ++ bytes

/-- Bytes with their check after them. -/
def checked (bytes : List UInt8) : List UInt8 := bytes ++ littleEndian 4 (checkLow bytes)

/-- Bytes as an xz file. -/
def xz (bytes : List UInt8) : List UInt8 :=
  let flags : List UInt8 := [0, 1]
  let blockHeader := checked [2, 0, 0x21, 1, 0x16, 0, 0, 0]
  let body :=
    (chunks 65536 bytes).zipIdx.flatMap (fun c => xzChunk (c.2 = 0) c.1) ++ [0]
  let size := blockHeader.length + body.length + 4
  let block := padded 4 (blockHeader ++ body) ++ littleEndian 4 (checkLow bytes)
  let index := checked (padded 4 ([0, 1] ++ sevenBits size ++ sevenBits bytes.length))
  let tail := littleEndian 4 (index.length / 4 - 1) ++ flags
  [0xFD, 0x37, 0x7A, 0x58, 0x5A, 0] ++ checked flags ++ block ++ index
    ++ littleEndian 4 (checkLow tail) ++ tail ++ [0x59, 0x5A]

end GatedMaze.Archive
