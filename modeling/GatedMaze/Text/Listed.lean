/-!
# Lists of numbers in messages

Numbers stand between square brackets, with a comma and a space between neighbours.
-/

namespace GatedMaze.Text

/-- A list of whole numbers in brackets. -/
def listed (ns : List Int) : String :=
  "[" ++ ", ".intercalate (ns.map toString) ++ "]"

end GatedMaze.Text
