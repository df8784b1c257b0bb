import GatedMaze.Text.Blank
import GatedMaze.Url.Address

/-!
# Uniform resource locators

A text that starts with one of the known schemes and a colon names a resource. Where two slashes
follow, a host comes next, and what stands there in brackets must be an address. A request for the
resource reads the text once more, and less forgivingly: only blanks around it are left out.
-/

namespace GatedMaze

namespace Url

/-- What is wrong with the place where a host should stand. -/
inductive Defect where
  /-- A bracket without its partner, or something beside brackets that does not belong there. -/
  | bracket
  /-- A bracketed address of a version to come that is not written like one. -/
  | version
  /-- Brackets around something that is no address. -/
  | noAddress (text : String)
  /-- Brackets around an address with points. -/
  | pointAddress
  /-- A character that stands for a mark which would end the host. -/
  | disguisedMark (authority : String)
  deriving DecidableEq, Repr

/-- The schemes that are known. -/
def schemes : List String :=
  ["file", "ftp", "git", "git+ssh", "gopher", "hdl", "http", "https", "imap", "mms", "nfs", "nntp",
   "prospero", "rsync", "rtsp", "rtspu", "sftp", "shttp", "sip", "sips", "snews", "svn",
   "svn+ssh", "tel", "telnet", "wais", "ws", "wss"]

/-- The characters whose compatibility form (NFKC in Unicode 14) has a slash, a question mark, a
number sign, an at sign or a colon in it. -/
def disguisedMarks : List (Nat × Nat) :=
  [(0x2047, 0x2049), (0x2100, 0x2101), (0x2105, 0x2106), (0x2A74, 0x2A74), (0xFE13, 0xFE13),
   (0xFE16, 0xFE16), (0xFE55, 0xFE56), (0xFE5F, 0xFE5F), (0xFE6B, 0xFE6B), (0xFF03, 0xFF03),
   (0xFF0F, 0xFF0F), (0xFF1A, 0xFF1A), (0xFF1F, 0xFF20)]

/-- The characters of a text that count: not the controls and blanks before it, and no tabs and line
ends. -/
def counted (text : String) : List Char :=
  (text.toList.dropWhile fun c => c.toNat ≤ 0x20).filter fun c =>
    c != '\t' && c != '\n' && c != '\r'

/-- Whether a character can stand in a scheme. -/
def isSchemeChar (c : Char) : Bool := c.isAlphanum || c == '+' || c == '-' || c == '.'

/-- A scheme, in lower case and empty if there is none, and what follows its colon. -/
def cutScheme (cs : List Char) : String × List Char :=
  let scheme := cs.takeWhile (· != ':')
  if scheme.length < cs.length && (scheme.head?.any Char.isAlpha) && scheme.all isSchemeChar then
    (String.ofList (scheme.map Char.toLower), cs.drop (scheme.length + 1))
  else ("", cs)

/-- What stands between two slashes and the end of the host. -/
def authority : List Char → List Char
  | '/' :: '/' :: cs => cs.takeWhile fun c => c != '/' && c != '?' && c != '#'
  | _ => []

/-- Whether brackets hold an address of a version to come: a number of base sixteen after the
letter, a point and something more. -/
def isVersioned (cs : List Char) : Bool :=
  let number := (cs.drop 1).takeWhile isHexDigit
  let rest := cs.drop (number.length + 1)
  !number.isEmpty && rest.head? == some '.' && 1 < rest.length

/-- What is wrong with what stands in brackets. -/
def bracketDefect? (cs : List Char) : Option Defect :=
  let text := String.ofList cs
  if cs.head? = some 'v' then if isVersioned cs then none else some .version
  else if isPointAddress text then some .pointAddress
  else if isColonAddress text then none
  else some (.noAddress text)

/-- The host of an authority with brackets: what they hold, or what comes before the first colon if
they stand before the last at sign. Between that sign and the brackets there may be nothing, and
after them only a colon with a port; none otherwise. -/
def bracketedHost? (cs : List Char) : Option (List Char) :=
  let place := (cs.reverse.takeWhile (· != '@')).reverse
  if place.contains '[' then
    let host := (place.drop 1).takeWhile (· != ']')
    let port := place.drop (host.length + 2)
    if place.head? = some '[' ∧ (port = [] ∨ port.head? = some ':') then some host else none
  else some (place.takeWhile (· != ':'))

/-- What is wrong with an authority. -/
def authorityDefect? (cs : List Char) : Option Defect :=
  let disguised := cs.any fun c => Text.inRanges disguisedMarks c.toNat
  let marked := if disguised then some (.disguisedMark (String.ofList cs)) else none
  if cs.contains '[' != cs.contains ']' then some .bracket
  else if cs.contains '[' then
    match bracketedHost? cs with
    | none => some .bracket
    | some host => bracketDefect? host <|> marked
  else marked

/-- The scheme of a text, none if it is not one of those known. -/
def scheme? (text : String) : Except Defect (Option String) :=
  let (scheme, rest) := cutScheme (counted text)
  match authorityDefect? (authority rest) with
  | some d => .error d
  | none => .ok (if schemes.contains scheme then some scheme else none)

end Url

/-- A request for a resource: its kind, and the text that tells it from others of the kind. -/
structure Request where
  kind : String
  selector : String
  deriving DecidableEq, Repr

namespace Request

/-- A text up to its last number sign. -/
def beforeFragment (cs : List Char) : List Char :=
  match cs.reverse.dropWhile (· != '#') with
  | [] => cs
  | _ :: before => before.reverse

/-- The request that a text with a scheme makes. -/
def ofText (text : String) : Request :=
  let cs := beforeFragment (Text.trimEnds Text.isBlank text.toList)
  let kind := cs.takeWhile (· != ':')
  ⟨String.ofList (kind.map Char.toLower), String.ofList (cs.drop (kind.length + 1))⟩

/-- The request that a text makes if it names a resource. -/
def ofUrl? (text : String) : Except Url.Defect (Option Request) :=
  (Url.scheme? text).map fun scheme => scheme.map fun _ => ofText text

end Request

end GatedMaze
