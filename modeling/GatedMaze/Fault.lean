import GatedMaze.Coord
import GatedMaze.Text.Listed
import GatedMaze.Text.Numeral
import GatedMaze.Text.Quoted
import GatedMaze.Text.Utf8
import GatedMaze.Url

/-!
# Faults

Whatever can go wrong, as causes. A `MazeError` is a condition of the maze that is solved and is
reported to the user; every other `Fault` is a misuse of the library or of the file system.
`message` gives the wording of each.
-/

namespace GatedMaze

/-- Why a text is no maze, or a maze cannot be split or walked as asked. -/
inductive Defect where
  /-- Nothing but blank lines. -/
  | empty
  /-- A row as long as `found` where the first row is as long as `expected`. -/
  | width (found expected : Nat)
  | unknownCharacter (c : Char)
  | repeatedKey (c : Char)
  | noStart
  /-- A byte above 127, with its offset in the input. -/
  | notAscii (byte offset : Nat)
  /-- A split of a maze that has not exactly one start. -/
  | splitStarts (found : Nat)
  /-- A split next to something that is not open floor. -/
  | splitBlocked
  /-- One agent in a maze that has not exactly one start. -/
  | loneStart (found : Nat)
  /-- Two starts that a walk connects. -/
  | sharedRegion (p q : Coord)
  /-- A defect in the words of whoever found it. -/
  | stated (text : String)
  deriving DecidableEq, Repr

/-- The wording of a defect. -/
def Defect.message : Defect → String
  | empty => "maze is empty"
  | width found expected => s!"row has width {found}, expected {expected}"
  | unknownCharacter c => "unrecognized maze character " ++ Text.quote c.toString
  | repeatedKey c => "key " ++ Text.quote c.toString ++ " appears more than once"
  | noStart => "maze has no start cell '@'"
  | notAscii byte offset =>
    "maze input is not ASCII: 'ascii' codec can't decode byte 0x"
      ++ String.ofList (Text.hexDigits 2 byte)
      ++ s!" in position {offset}: ordinal not in range(128)"
  | splitStarts found => s!"vault split needs exactly one start, found {found}"
  | splitBlocked => "vault split needs open floor around the start"
  | loneStart found => s!"a single agent needs exactly one start, found {found}"
  | sharedRegion p q => s!"start cells {p.text} and {q.text} share a region"
  | stated text => text

/-- Why no order of the keys, or not the order at hand, can be walked. -/
inductive Impasse where
  /-- No order collects all of so many keys. -/
  | noOrder (keys : Nat)
  | repeated (k : Int)
  /-- The leg from `origin` to `k` crosses gates whose keys are not held. -/
  | locked (k origin : Int) (gates : List Int)
  /-- A plan whose order takes another number of moves than the plan states. -/
  | disputed (order : String) (walked planned : Int)
  /-- An impasse in the words of whoever met it. -/
  | stated (text : String)
  deriving DecidableEq, Repr

/-- The wording of an impasse. -/
def Impasse.message : Impasse → String
  | noOrder keys => s!"no gate-respecting order collects all {keys} keys"
  | repeated k => s!"key {k} appears twice in the order"
  | locked k origin gates =>
    s!"reaching key {k} from {origin} needs gates {Text.listed gates} still locked"
  | disputed order walked planned =>
    s!"order {order} replays to {walked} moves, solver reported {planned}"
  | stated text => text

/-- A condition of the maze that is solved. -/
inductive MazeError where
  /-- A defect, at a place where it has one. -/
  | defect (d : Defect) (row col : Option Int)
  /-- No path joins the places of two ids. -/
  | unreachable (a b : Int)
  /-- Keys are left over when all quadrants are taken. -/
  | unassigned (keys : List Int) (quadrants : Int)
  | impasse (i : Impasse)
  /-- A condition in the words of whoever met it. -/
  | stated (text : String)
  deriving DecidableEq, Repr

namespace MazeError

/-- A defect at a place. -/
def defectAt (d : Defect) (p : Coord) : MazeError := defect d (some p.row) (some p.col)

/-- A defect of the maze as a whole. -/
def defectOf (d : Defect) : MazeError := defect d none none

/-- The wording of an error; a place is given when its row and its column are known. -/
def message : MazeError → String
  | defect d (some row) (some col) => d.message ++ s!" (row {row}, col {col})"
  | defect d _ _ => d.message
  | unreachable a b => s!"no path between ids {a} and {b}"
  | unassigned keys quadrants =>
    s!"maze does not split into {quadrants} independent regions; "
      ++ s!"unassigned keys: {Text.listed keys}"
  | impasse i => i.message
  | stated text => text

/-- The name under which reports and tables file an error. -/
def label : MazeError → String
  | defect .. => "ParseError"
  | unreachable .. => "UnreachablePair"
  | unassigned .. => "PartitionFailure"
  | impasse _ => "NoSolution"
  | stated _ => "KeyMazeError"

end MazeError

/-- What the file system refused. -/
inductive FileTrouble where
  | missing
  | fileExists
  | notDirectory
  | isDirectory
  | nameTooLong
  deriving DecidableEq, Repr

/-- The system's number for a refusal. -/
def FileTrouble.number : FileTrouble → Nat
  | missing => 2
  | fileExists => 17
  | notDirectory => 20
  | isDirectory => 21
  | nameTooLong => 36

/-- The system's words for a refusal. -/
def FileTrouble.words : FileTrouble → String
  | missing => "No such file or directory"
  | fileExists => "File exists"
  | notDirectory => "Not a directory"
  | isDirectory => "Is a directory"
  | nameTooLong => "File name too long"

/-- A refusal with what it was about. -/
def FileTrouble.message (t : FileTrouble) (path : String) : String :=
  s!"[Errno {t.number}] {t.words}: " ++ Text.quote path

/-- Why a request for a resource fails. -/
inductive FetchTrouble where
  /-- A request to a host that is not named. -/
  | noHost
  /-- A request for a transfer from a host that is not named. -/
  | noTransferHost
  /-- A kind of request that nothing answers. -/
  | unknownKind (kind : String)
  | file (trouble : FileTrouble) (path : String)
  deriving DecidableEq, Repr

/-- The wording of a failed request. -/
def FetchTrouble.message (t : FetchTrouble) : String :=
  let reason := match t with
    | noHost => "no host given"
    | noTransferHost => "ftp error: no host given"
    | unknownKind kind => "unknown url type: " ++ kind
    | file trouble path => trouble.message path
  "<urlopen error " ++ reason ++ ">"

/-- The wording for a host that is refused. -/
def Url.Defect.message : Url.Defect → String
  | bracket => "Invalid IPv6 URL"
  | version => "IPvFuture address is invalid"
  | noAddress text => Text.quote text ++ " does not appear to be an IPv4 or IPv6 address"
  | pointAddress => "An IPv4 address cannot be in brackets"
  | disguisedMark authority =>
    "netloc '" ++ authority ++ "' contains invalid characters under NFKC normalization"

/-- The wording for bytes that write no text. -/
def utf8Message (d : Text.Utf8.Defect) : String :=
  let bytes :=
    if d.count = 1 then
      "byte 0x" ++ String.ofList (Text.hexDigits 2 d.first) ++ s!" in position {d.position}"
    else s!"bytes in position {d.position}-{d.position + d.count - 1}"
  "'utf-8' codec can't decode " ++ bytes ++ ": " ++ d.flaw.message

/-- Anything that keeps an operation from its answer. -/
inductive Fault where
  | maze (e : MazeError)
  /-- An id that a set of ids cannot hold. -/
  | idOutsideSet (i : Int)
  | negativeTable
  /-- More slots or agents than can be counted. -/
  | uncountable
  /-- More slots or agents than there is room for. -/
  | outOfMemory
  /-- A pair of ids that a table of `n` ids has no slot for. -/
  | pairOutsideTable (a b : Int) (n : Nat)
  /-- A quadrant number that no agent stands for. -/
  | noSuchAgent
  /-- A quadrant number that is too large to count agents by. -/
  | agentBeyondCount
  /-- A key that lies in no quadrant. -/
  | homeless (k : Int)
  /-- A place of a list behind its last item. -/
  | placeOutsideList
  /-- More steps inside one another than there is room for. -/
  | tooDeep
  | agentCount (n : Int)
  /-- A number of agents that was asked for without a number. -/
  | noAgentCount
  | unknownStage (name : String)
  | notWhole (text : String)
  /-- A numeral of so many digits. -/
  | tooManyDigits (digits : Nat)
  /-- A number with more digits than are written out. -/
  | unwritable
  /-- A quotient beyond the largest double. -/
  | quotientTooLarge
  | file (trouble : FileTrouble) (path : String)
  /-- A path, an argument or a variable with the null character in it. -/
  | nullCharacter
  | notUnicode (d : Text.Utf8.Defect)
  /-- A file in a directory that is not there. -/
  | noDirectory (path : String)
  /-- A packed form that nothing at hand can write. -/
  | noPacker (name : String)
  /-- A text that names no resource, though it looks as if it named one on a host. -/
  | badUrl (d : Url.Defect)
  | notFetched (t : FetchTrouble)
  /-- An option that was given without the path that is to be put to a use. -/
  | noPath (use : String)
  deriving DecidableEq, Repr

/-- The wording of a fault. -/
def Fault.message : Fault → String
  | maze e => e.message
  | idOutsideSet i => s!"id {i} outside small-set range 0..31"
  | negativeTable => "n must be non-negative"
  | uncountable => "cannot fit 'int' into an index-sized integer"
  | outOfMemory => ""
  | pairOutsideTable a b n => s!"pair ({a}, {b}) outside table of size {n}"
  | noSuchAgent => "tuple index out of range"
  | agentBeyondCount => "cannot fit 'int' into an index-sized integer"
  | homeless k => toString k
  | placeOutsideList => "list index out of range"
  | tooDeep => "maximum recursion depth exceeded while calling a Python object"
  | agentCount n => s!"agents must be 1 or 4, got {n}"
  | noAgentCount => "agents must be 1 or 4, got []"
  | unknownStage name => "unknown progress stage " ++ Text.quote name
  | notWhole text =>
    "invalid literal for int() with base 10: " ++ String.ofList ((Text.quote text).toList.take 200)
  | tooManyDigits digits =>
    s!"Exceeds the limit ({Text.digitLimit} digits) for integer string conversion: "
      ++ s!"value has {digits} digits; use sys.set_int_max_str_digits() to increase the limit"
  | unwritable =>
    s!"Exceeds the limit ({Text.digitLimit} digits) for integer string conversion; "
      ++ "use sys.set_int_max_str_digits() to increase the limit"
  | quotientTooLarge => "integer division result too large for a float"
  | file trouble path => trouble.message path
  | nullCharacter => "embedded null byte"
  | notUnicode d => utf8Message d
  | noDirectory path => "Cannot save file into a non-existent directory: '" ++ path ++ "'"
  | noPacker name =>
    "Missing optional dependency '" ++ name ++ "'.  Use pip or conda to install " ++ name ++ "."
  | badUrl d => d.message
  | notFetched t => t.message
  | noPath use => "'list' object has no attribute '" ++ use ++ "'"

/-- A defect as a fault. -/
def Fault.defectOf (d : Defect) : Fault := .maze (.defectOf d)

/-- A defect at a place as a fault. -/
def Fault.defectAt (d : Defect) (p : Coord) : Fault := .maze (.defectAt d p)

/-- An impasse as a fault. -/
def Fault.impasse (i : Impasse) : Fault := .maze (.impasse i)

end GatedMaze
