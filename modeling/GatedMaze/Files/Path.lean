import GatedMaze.Text.Null

/-!
# Paths

A path is a list of names below a root. Names that stand for nothing, the empty one and the single
dot, go when a path is read; a double dot stays, since what it stands for depends on the files.
-/

namespace GatedMaze

/-- A path: its root, empty for a relative path, and the names below it. -/
structure Path where
  root : String
  names : List String
  deriving DecidableEq, Repr

namespace Path

/-- The root of a text: a slash, two slashes if there are exactly two, or none. -/
def rootOf (text : List Char) : String :=
  match (text.takeWhile (· == '/')).length with
  | 0 => ""
  | 2 => "//"
  | _ => "/"

/-- The pieces of a text between slashes. -/
def pieces : List Char → List (List Char)
  | [] => [[]]
  | c :: cs =>
    if c = '/' then [] :: pieces cs
    else match pieces cs with
      | [] => [[c]]
      | piece :: rest => (c :: piece) :: rest

/-- Whether a name stands for nothing: the empty one and the single dot. -/
def isIdle (name : String) : Bool := name = "" || name = "."

/-- The path that a text spells. -/
def ofString (text : String) : Path where
  root := rootOf text.toList
  names := ((pieces text.toList).map String.ofList).filter fun n => !isIdle n

/-- A path as text; the path without root and names is the single dot. -/
def text (p : Path) : String :=
  if p.root.isEmpty && p.names.isEmpty then "." else p.root ++ "/".intercalate p.names

/-- The last name of a path, empty when there is none. -/
def name (p : Path) : String := p.names.getLast?.getD ""

/-- The path without its last name; a path without names is its own parent. -/
def parent (p : Path) : Path := { p with names := p.names.dropLast }

/-- Whether a path starts from a root. -/
def isAbsolute (p : Path) : Bool := !p.root.isEmpty

/-- A path as seen from a directory. -/
def under (p dir : Path) : Path :=
  if p.isAbsolute then p else { dir with names := dir.names ++ p.names }

/-- Names after one more, which takes the last one back when it is a double dot. -/
def climb (names : List String) (name : String) : List String :=
  if name = ".." then names.dropLast else names ++ [name]

/-- A path with every double dot taken back together with the name before it, from a plain root. -/
def collapse (p : Path) : Path where
  root := if p.isAbsolute then "/" else ""
  names := p.names.foldl climb []

/-- Whether the null character stands in a path; no file system can be asked for such a path. -/
def hasNull (p : Path) : Bool := p.names.any Text.hasNull

end Path

end GatedMaze
