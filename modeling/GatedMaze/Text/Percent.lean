import GatedMaze.Text.Utf8

/-!
# Percent signs

A percent sign with two digits of base sixteen after it stands for a byte. The bytes of a run of
ASCII characters write text in UTF-8 when all such signs in it are taken back.
-/

namespace GatedMaze.Text

/-- The value of a digit of base sixteen, in either case. -/
def hexValue? (c : Char) : Option Nat :=
  if c.isDigit then some (c.toNat - 0x30)
  else if 'a' ≤ c ∧ c ≤ 'f' then some (c.toNat - 0x57)
  else if 'A' ≤ c ∧ c ≤ 'F' then some (c.toNat - 0x37)
  else none

/-- The byte that two digits of base sixteen write. -/
def hexByte? (a b : Char) : Option UInt8 :=
  match hexValue? a, hexValue? b with
  | some x, some y => some (UInt8.ofNat (x * 16 + y))
  | _, _ => none

/-- The bytes that ASCII characters stand for. -/
def percentBytes : List Char → List UInt8
  | [] => []
  | c :: a :: b :: cs =>
    if c = '%' then
      match hexByte? a b with
      | some byte => byte :: percentBytes cs
      | none => 0x25 :: percentBytes (a :: b :: cs)
    else UInt8.ofNat c.toNat :: percentBytes (a :: b :: cs)
  | c :: cs => UInt8.ofNat c.toNat :: percentBytes cs

/-- Whether a character is one of ASCII. -/
def isAscii (c : Char) : Bool := c.toNat < 0x80

/-- A text with its percent signs taken back, each run of ASCII characters on its own. What writes
no text is replaced. -/
def percentDecode (text : String) : String :=
  let runs := text.toList.splitBy fun a b => isAscii a == isAscii b
  String.ofList (runs.flatMap fun run =>
    if run.all isAscii then Utf8.decodeLossy (percentBytes run) else run)

end GatedMaze.Text
