import GatedMaze.Text.Percent

/-!
# Numeric addresses

A host is named by a number in one of two notations: four decimal numbers between points, or eight
groups of digits of base sixteen between colons, of which a run may be left out once.
-/

namespace GatedMaze.Url

/-- Whether a text is one of the numbers of the notation with points: up to 255, without leading
zeros. -/
def isOctet (text : String) : Bool :=
  let cs := text.toList
  let value := cs.foldl (fun n c => n * 10 + (c.toNat - 0x30)) 0
  !cs.isEmpty && cs.all Char.isDigit && cs.length ≤ 3 && (text == "0" || cs.head? != some '0')
    && value ≤ 255

/-- Whether a text is an address with points. -/
def isPointAddress (text : String) : Bool :=
  let parts := text.splitOn "."
  parts.length == 4 && parts.all isOctet

/-- Whether a character is a digit of base sixteen. -/
def isHexDigit (c : Char) : Bool := (Text.hexValue? c).isSome

/-- Whether a text is a group of the notation with colons. -/
def isGroup (text : String) : Bool :=
  !text.isEmpty && text.length ≤ 4 && text.toList.all isHexDigit

/-- How many groups the notation with colons has. -/
def groupCount : Nat := 8

/-- Parts with two groups for the last one where that is an address with points, none where it only
looks like one. -/
def withoutPoints (parts : List String) : Option (List String) :=
  match parts.getLast? with
  | none => some parts
  | some last =>
    if !last.toList.contains '.' then some parts
    else if isPointAddress last then some (parts.dropLast ++ ["0", "0"])
    else none

/-- The parts of one side of a run that is left out; a run at either end has an empty part there. -/
def sideOf (parts : List String) : List String := if parts = [""] then [] else parts

/-- The groups that parts between colons write out, none where they make no address. An empty part
that is neither the first nor the last stands for the run that is left out. -/
def groups (parts : List String) : Option (List String) :=
  let left := parts.take 1 ++ (parts.drop 1).takeWhile (· != "")
  if parts.length ≤ left.length + 1 then
    if parts.length = groupCount ∧ parts.all isGroup then some parts else none
  else
    let written := sideOf left ++ sideOf (parts.drop (left.length + 1))
    if written.length < groupCount ∧ written.all isGroup then some written else none

/-- Whether a text is an address with colons; what follows a percent sign names a zone. -/
def isColonAddress (text : String) : Bool :=
  let parts := (String.ofList (text.toList.takeWhile (· != '%'))).splitOn ":"
  let zone := (text.toList.dropWhile (· != '%')).drop 1
  let zoned := !text.toList.contains '%' || (!zone.isEmpty && !zone.contains '%')
  zoned && 3 ≤ parts.length && ((withoutPoints parts).bind groups).isSome

end GatedMaze.Url
