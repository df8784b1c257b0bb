import GatedMaze.Text.Blank
import GatedMaze.Text.Digit

/-!
# Reading whole numbers

A numeral is one optional sign and decimal digits, with single underscores allowed between digits
and white space around it. The digits may come from any script, and from several. A numeral that
starts with too many digits is refused for its length, whatever follows the digits.
-/

namespace GatedMaze.Text

/-- Why a text is not read as a whole number. -/
inductive NumeralDefect where
  | malformed
  /-- So many digits, more than are read. -/
  | tooLong (digits : Nat)
  deriving DecidableEq, Repr

/-- The most digits that a numeral may have. -/
def digitLimit : Nat := 4300

/-- White space around a numeral: that of a line, without the separators U+001C to U+001F. -/
def isNumeralBlank (c : Char) : Bool := isBlank c && !(0x1C ≤ c.toNat && c.toNat ≤ 0x1F)

/-- Whether a character may stand in a numeral after its sign. -/
def isNumeralPart (c : Char) : Bool := c == '_' || (digitValue? c).isSome

/-- Digits with single underscores between them, read on from the value of those before. -/
def readDigits (value : Nat) : List Char → Option Nat
  | [] => some value
  | '_' :: c :: cs => (digitValue? c).bind fun d => readDigits (value * 10 + d) cs
  | c :: cs => (digitValue? c).bind fun d => readDigits (value * 10 + d) cs

/-- Digits and underscores that start with a digit. -/
def readRun : List Char → Option Nat
  | [] => none
  | c :: cs => (digitValue? c).bind fun d => readDigits d cs

/-- A numeral without a sign. -/
def readUnsigned (cs : List Char) : Except NumeralDefect Nat :=
  let run := cs.takeWhile isNumeralPart
  let digits := run.countP (· != '_')
  match readRun run with
  | none => .error .malformed
  | some n =>
    if digitLimit < digits then .error (.tooLong digits)
    else if run.length = cs.length then .ok n
    else .error .malformed

/-- A numeral with its sign. -/
def readInt (text : String) : Except NumeralDefect Int :=
  match trimEnds isNumeralBlank text.toList with
  | '-' :: cs => (readUnsigned cs).map fun n => -(n : Int)
  | '+' :: cs => (readUnsigned cs).map Int.ofNat
  | cs => (readUnsigned cs).map Int.ofNat

end GatedMaze.Text
