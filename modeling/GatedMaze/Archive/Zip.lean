import GatedMaze.Archive.Checksum
import GatedMaze.Archive.Field

/-!
# Zip files

One member that holds the bytes as they are, dated the first day that the format knows.
-/

namespace GatedMaze.Archive

/-- What the two headers of a member have in common, from the version it takes to read it on. -/
def zipMember (name bytes : List UInt8) : List UInt8 :=
  littleEndian 2 20 ++ littleEndian 2 0x800 ++ littleEndian 2 0 ++ littleEndian 2 0
    ++ littleEndian 2 0x21 ++ littleEndian 4 (checkLow bytes) ++ littleEndian 4 bytes.length
    ++ littleEndian 4 bytes.length ++ littleEndian 2 name.length ++ littleEndian 2 0

/-- Bytes as a zip file with one member of the given name. -/
def zip (name : String) (bytes : List UInt8) : List UInt8 :=
  let name := bytesOf name
  let front := [0x50, 0x4B, 3, 4] ++ zipMember name bytes ++ name ++ bytes
  let directory :=
    [0x50, 0x4B, 1, 2] ++ littleEndian 2 20 ++ zipMember name bytes
      ++ List.replicate 14 0 ++ name
  front ++ directory
    ++ [0x50, 0x4B, 5, 6, 0, 0, 0, 0, 1, 0, 1, 0]
    ++ littleEndian 4 directory.length ++ littleEndian 4 front.length ++ [0, 0]

end GatedMaze.Archive
