/-!
# The null character

What the system is handed, a path, an argument or a variable, ends at the character U+0000. So a
text with this character inside cannot be handed over.
-/

namespace GatedMaze.Text

/-- Whether the character U+0000 stands in a text. -/
def hasNull (text : String) : Bool := text.toList.contains (Char.ofNat 0)

end GatedMaze.Text
