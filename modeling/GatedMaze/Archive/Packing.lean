import GatedMaze.Archive.Bzip2
import GatedMaze.Archive.Gzip
import GatedMaze.Archive.Tar
import GatedMaze.Archive.Xz
import GatedMaze.Archive.Zip
import GatedMaze.Files.Path

/-!
# Packed files

The end of a file's name says in which form its bytes are packed, in upper or lower case. One form
is known but cannot be written.
-/

namespace GatedMaze.Archive

/-- The ways to pack the bytes of a file. -/
inductive Packing where
  | plain
  | gzip
  | bzip2
  | xz
  | zip
  | tar
  /-- Known by its name only. -/
  | zstandard
  deriving DecidableEq, Repr

/-- The ends of names with the packings they stand for, the first match counts. -/
def Packing.table : List (String × Packing) :=
  [(".tar", .tar), (".tar.gz", .tar), (".tar.bz2", .tar), (".tar.xz", .tar), (".gz", .gzip),
   (".bz2", .bzip2), (".zip", .zip), (".xz", .xz), (".zst", .zstandard)]

/-- Whether a name ends in another text, in any case. -/
def endsLike (suffix name : String) : Bool :=
  suffix.toList.reverse.isPrefixOf (name.toList.map Char.toLower).reverse

/-- The packing that the name of a file asks for. -/
def Packing.ofName (name : String) : Packing :=
  ((Packing.table.find? fun e => endsLike e.1 name).map (·.2)).getD .plain

/-- The part of a name from its last point on; a point at either end does not count. -/
def suffixOf (name : String) : String :=
  let tail := name.toList.reverse.takeWhile (· != '.')
  if tail.isEmpty || name.length ≤ tail.length + 1 then ""
  else String.ofList ('.' :: tail.reverse)

/-- A name without a suffix, if it has that one. -/
def dropSuffix (suffix name : String) : String :=
  if suffixOf name = suffix then String.ofList (name.toList.take (name.length - suffix.length))
  else name

/-- The bytes of a file of the given name that holds a text of the given bytes; none where its form
cannot be written. A tar file may be packed once more. -/
def pack? (name : String) (bytes : List UInt8) : Option (List UInt8) :=
  match Packing.ofName name with
  | .plain => some bytes
  | .gzip => some (gzip bytes)
  | .bzip2 => some (bzip2 bytes)
  | .xz => some (xz bytes)
  | .zip => some (zip (dropSuffix ".zip" name) bytes)
  | .zstandard => none
  | .tar =>
    let inner := tar (dropSuffix ".tar" name) bytes
    match suffixOf name with
    | ".gz" => some (gzip inner)
    | ".bz2" => some (bzip2 inner)
    | ".xz" => some (xz inner)
    | _ => some inner

end GatedMaze.Archive
