import GatedMaze.Archive.Checksum
import GatedMaze.Archive.Field

/-!
# Gzip files

One member without a name, whose blocks hold the bytes as they are.
-/

namespace GatedMaze.Archive

/-- A block that holds at most 65535 bytes as they are. -/
def storedBlock (last : Bool) (bytes : List UInt8) : List UInt8 :=
  (if last then 1 else 0) :: littleEndian 2 bytes.length
    ++ littleEndian 2 (65535 - bytes.length) ++ bytes

/-- Bytes as a gzip file. -/
def gzip (bytes : List UInt8) : List UInt8 :=
  [0x1F, 0x8B, 8, 0, 0, 0, 0, 0, 0, 255]
    ++ (chunks 65535 bytes).flatMap (storedBlock false) ++ storedBlock true []
    ++ littleEndian 4 (checkLow bytes) ++ littleEndian 4 bytes.length

end GatedMaze.Archive
