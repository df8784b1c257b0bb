import GatedMaze.Files.Path

/-!
# Where a project keeps its mazes

A project is a directory that holds the program's files and the data side by side. Its root is
found from the path of one of the program's files.
-/

namespace GatedMaze

namespace Path

/-- The root of the project that a program file belongs to: two levels above the directory of the
package, whether the file stands in that directory or one below it. -/
def projectRoot (file : Path) : Path :=
  let dir := file.parent
  if dir.name = "keymaze" then dir.parent.parent else dir.parent.parent.parent

/-- The directory of the mazes of a project. -/
def mazeDir (root : Path) : Path := { root with names := root.names ++ ["data", "mazes"] }

end Path

end GatedMaze
