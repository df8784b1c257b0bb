import GatedMaze.Archive.Field

/-!
# Tar files

One regular file that everybody may read and its owner write, without an owner's name and dated at
the start of time. A file is a header of 512 bytes and the bytes, padded to a multiple of 512; the
whole is padded to a multiple of 10240. A name that does not fit into the header, or is not in
ASCII, stands in full in an extended header before the file, as a record that counts its own bytes.
-/

namespace GatedMaze.Archive

/-- A number in base eight with leading zeros. -/
def octal : Nat → Nat → List UInt8
  | 0, _ => []
  | width + 1, n => octal width (n / 8) ++ [UInt8.ofNat (0x30 + n % 8)]

/-- What a tar file says of one of its members. -/
structure TarMember where
  name : List UInt8
  /-- Who may do what, in three bits each. -/
  mode : Nat
  size : Nat
  /-- The letter for the kind of the member. -/
  kind : List UInt8

/-- The most bytes of a name in a header. -/
def tarNameLimit : Nat := 100

/-- A header with the given field for its check. -/
def TarMember.headerWith (m : TarMember) (check : List UInt8) : List UInt8 :=
  fixed tarNameLimit m.name ++ fixed 8 (octal 7 m.mode) ++ fixed 8 (octal 7 0)
    ++ fixed 8 (octal 7 0) ++ fixed 12 (octal 11 m.size) ++ fixed 12 (octal 11 0) ++ fixed 8 check
    ++ m.kind ++ fixed 100 [] ++ fixed 8 (bytesOf "ustar" ++ [0] ++ bytesOf "00") ++ fixed 247 []

/-- The sum of bytes. -/
def byteSum (bytes : List UInt8) : Nat := bytes.foldl (fun n b => n + b.toNat) 0

/-- The header of a member. The check is the sum of the header with blanks in its place. -/
def TarMember.header (m : TarMember) : List UInt8 :=
  m.headerWith (octal 6 (byteSum (m.headerWith (List.replicate 8 0x20))) ++ [0, 0x20])

/-- A member with its bytes, in whole blocks. -/
def tarEntry (name : String) (mode : Nat) (kind : String) (bytes : List UInt8) : List UInt8 :=
  let ascii := String.ofList (name.toList.map fun c => if c.toNat < 0x80 then c else '?')
  (TarMember.mk (bytesOf ascii) mode bytes.length (bytesOf kind)).header ++ padded 512 bytes

/-- The length of a record whose parts other than its length take `rest` bytes: the first guess that
counts its own digits too. -/
def recordLength (rest : Nat) : Nat :=
  let guess := rest + (toString rest).length
  rest + (toString guess).length

/-- A record of an extended header: its length, a keyword and a value. -/
def extendedRecord (keyword value : String) : List UInt8 :=
  let rest := bytesOf s!" {keyword}={value}\n"
  bytesOf (toString (recordLength rest.length)) ++ rest

/-- Whether a header can hold a name. -/
def tarNameFits (name : String) : Bool :=
  name.toList.all (fun c => c.toNat < 0x80) && name.length ≤ tarNameLimit

/-- Bytes as a tar file with one file of the given name. -/
def tar (name : String) (bytes : List UInt8) : List UInt8 :=
  let extended :=
    if tarNameFits name then []
    else tarEntry "././@PaxHeader" 0 "x" (extendedRecord "path" name)
  padded 10240 (extended ++ tarEntry name 0o644 "0" bytes ++ List.replicate 1024 0)

end GatedMaze.Archive
