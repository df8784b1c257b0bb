import GatedMaze.Command.Batching
import GatedMaze.Command.Solving

/-!
# The programs

The three commands over the real file system, chosen by the name the program is called by. All
that is done here is to read the files, streams and variables that a command needs and to print
what it ends with.
-/

namespace GatedMaze.Command

/-- The variable that says whether notes are shown. -/
def noteVariable : String := "KEYMAZE_DEBUG"

/-- A refusal of the system. -/
def systemTrouble : IO.Error → FileTrouble
  | .alreadyExists .. => .fileExists
  | .inappropriateType _ code _ =>
    if code.toNat = FileTrouble.number .notDirectory then .notDirectory else .isDirectory
  | .invalidArgument .. => .nameTooLong
  | _ => .missing

/-- The bytes of a file under its name as it stands. -/
def readNamed (name : String) : IO (Except FileTrouble (List UInt8)) := do
  try
    return .ok (← IO.FS.readBinFile name).toList
  catch e =>
    return .error (systemTrouble e)

/-- The bytes of a file. -/
def readFile (p : Path) : IO (Except Fault (List UInt8)) := do
  if p.hasNull then return .error .nullCharacter
  match ← readNamed p.text with
  | .ok bytes => return .ok bytes
  | .error t => return .error (.file t p.text)

/-- All bytes of a stream. -/
partial def readStream (stream : IO.FS.Stream) (before : ByteArray) : IO ByteArray := do
  let piece ← stream.read 65536
  if piece.isEmpty then return before else readStream stream (before ++ piece)

/-- The bytes that a request for a maze is about. -/
def readMaze (file : Option Path) : IO (Except Fault (List UInt8)) := do
  match file with
  | some p => readFile p
  | none => return .ok (← readStream (← IO.getStdin) ByteArray.empty).toList

/-- Prints lines to a stream. -/
def printTo (stream : IO.FS.Stream) (lines : List String) : IO Unit :=
  lines.forM stream.putStrLn

/-- Prints what a command ends with. -/
def finish (result : Except Fault Outcome) : IO UInt32 := do
  let o := match result with
    | .ok o => o
    | .error e => broken e
  printTo (← IO.getStdout) o.out
  printTo (← IO.getStderr) o.err
  return o.exit.toUInt32

/-- The solving command. -/
def mainSolve (args : List String) : IO UInt32 := do
  match showsNotes (← IO.getEnv noteVariable), SolveRequest.ofArgs args with
  | .error e, _ => finish (.error e)
  | .ok _, .error stop => finish (.ok (stop.outcome solveManual))
  | .ok shown, .ok r => finish (r.finish (r.shows shown) (← readMaze r.file?))

/-- The launching command. -/
def mainLaunch (args : List String) : IO UInt32 := do
  match SolveRequest.ofArgs args with
  | .error stop => finish (.ok (stop.outcome launchManual))
  | .ok r =>
    match r.wholeFile? (.ofString (← IO.currentDir).toString) with
    | .error e => finish (.error e)
    | .ok file => finish (.ok (r.launched (← IO.getEnv noteVariable) (← readMaze file)))

/-- The maze files of a directory, sorted by name; none where there is no directory. -/
def listMazes (dir : Path) : IO (List Path) := do
  try
    let entries ← (← IO.FS.realPath dir.text).readDir
    let names := (entries.toList.map fun e => e.fileName).filter fun n => n.endsWith ".txt"
    return (names.mergeSort fun a b => !(b < a)).map fun n => { dir with names := dir.names ++ [n] }
  catch _ =>
    return []

/-- Whether a path leads to a directory. -/
def isDirectory (p : Path) : IO Bool := do
  try
    (← IO.FS.realPath p.text).isDir
  catch _ =>
    return false

/-- The lines of the system's accounts. -/
def readAccounts : IO (List String) := do
  match ← readFile ⟨"/", Files.accountsFile⟩ with
  | .ok bytes =>
    match Files.decodeText bytes with
    | .ok text => return text.splitOn "\n"
    | .error _ => return []
  | .error _ => return []

/-- The end of a request for a resource that a table was to be written to. -/
def fetchFor (p : Path) (rows : List Row) (r : Request) : IO (Except Fault Outcome) := do
  match r.fileName with
  | .error e => return .error e
  | .ok name =>
    match ← readNamed name with
    | .error t => return .error (.notFetched (.file t name))
    | .ok _ => return (csvBytes p rows).map fun _ => ⟨0, Printed.lines false [written p], []⟩

/-- Writes a table to the file at `target`, or fetches the resource that it names, for the path `p`
that was given. -/
def storeAt (p target : Path) (rows : List Row) : IO UInt32 := do
  match resource? target with
  | .error e => finish (.error e)
  | .ok (some r) => finish (← fetchFor p rows r)
  | .ok none =>
    if !(← isDirectory target.parent) then finish (.error (.noDirectory target.parent.text))
    else
      match csvBytes p rows with
      | .error e => finish (.error e)
      | .ok bytes =>
        try
          IO.FS.writeBinFile target.text (ByteArray.mk bytes.toArray)
          finish (.ok ⟨0, Printed.lines false [written p], []⟩)
        catch e =>
          finish (.error (.file (systemTrouble e) target.text))

/-- Writes a table and prints where it is. -/
def writeTable (p : Path) (rows : List Row) : IO UInt32 := do
  let user := Path.ofString ((← IO.getEnv "HOME").getD "~")
  try
    IO.FS.createDirAll p.parent.text
    match p.expandHome (homeOf? (← readAccounts) user) with
    | .error e => finish (.error e)
    | .ok target => storeAt p target rows
  catch e =>
    finish (.error (.file (systemTrouble e) p.text))

/-- The batch command; the working directory is the root of the project. -/
def mainBatch (args : List String) : IO UInt32 := do
  let root := Path.ofString "."
  match BatchRequest.ofArgs root.mazeDir args with
  | .error stop => finish (.ok (stop.outcome batchManual))
  | .ok r =>
    match r.searched with
    | .error e => finish (.error e)
    | .ok dir =>
      let inputs ← (← listMazes dir).mapM fun p => do
        return (p.name, (← readFile p) >>= Files.decodeText)
      let run := printTable dir inputs
      printTo (← IO.getStdout) (Printed.lines false run.notes)
      match run.outcome, r.csvFile? root with
      | .error e, _ => finish (.error e)
      | .ok _, .error e => finish (.error e)
      | .ok _, .ok none => return 0
      | .ok rows, .ok (some p) => writeTable p rows

end GatedMaze.Command

/-- Runs the command that goes by the name of the program. -/
def main (args : List String) : IO UInt32 := do
  match (← IO.appPath).fileName with
  | some "keymaze-experiments" => GatedMaze.Command.mainBatch args
  | some "run_solver.py" => GatedMaze.Command.mainLaunch args
  | _ => GatedMaze.Command.mainSolve args
