import GatedMaze.Text.Unprintable

/-!
# Quoted text

A text shown inside a message stands between quote marks, with everything that could be mistaken
written as an escape. The mark is the apostrophe, unless the text holds an apostrophe and no
double quote.
-/

namespace GatedMaze.Text

/-- The apostrophe, U+0027. -/
def apostrophe : Char := Char.ofNat 0x27

/-- The double quote, U+0022. -/
def doubleQuote : Char := Char.ofNat 0x22

/-- The backslash, U+005C. -/
def backslash : Char := Char.ofNat 0x5C

/-- The mark that a text is quoted with. -/
def quoteMark (cs : List Char) : Char :=
  if apostrophe ∈ cs ∧ doubleQuote ∉ cs then doubleQuote else apostrophe

/-- The last `width` digits of `n` in base sixteen, in lower case. -/
def hexDigits : Nat → Nat → List Char
  | 0, _ => []
  | width + 1, n => hexDigits width (n / 16) ++ [Nat.digitChar (n % 16)]

/-- A code point as an escape, in the shortest of the three widths that holds it. -/
def hexEscape (n : Nat) : List Char :=
  if n < 0x100 then backslash :: 'x' :: hexDigits 2 n
  else if n < 0x10000 then backslash :: 'u' :: hexDigits 4 n
  else backslash :: 'U' :: hexDigits 8 n

/-- One character of a text between two `mark`s. -/
def escape (mark c : Char) : List Char :=
  if c = mark ∨ c = backslash then [backslash, c]
  else if c = '\n' then [backslash, 'n']
  else if c = '\r' then [backslash, 'r']
  else if c = '\t' then [backslash, 't']
  else if isUnprintable c then hexEscape c.toNat
  else [c]

/-- A text between quote marks. -/
def quote (text : String) : String :=
  let mark := quoteMark text.toList
  String.ofList (mark :: text.toList.flatMap (escape mark) ++ [mark])

end GatedMaze.Text
