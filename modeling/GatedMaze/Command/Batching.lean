import GatedMaze.Archive.Packing
import GatedMaze.Batch.Table
import GatedMaze.Command.Manual
import GatedMaze.Files.Fetch
import GatedMaze.Files.Layout

/-!
# The batch command

Solves every maze file of a directory in every mode, prints the table, and writes it to a file if
asked to, in the form that the name of the file asks for. An option that lost its path is noticed
when the path is needed.
-/

namespace GatedMaze.Command

/-- What the batch command is asked to do. -/
structure BatchRequest where
  /-- The directory of the mazes, none when the option for it was given without a path. -/
  mazeDir : Option Path
  /-- The file for the table, if one is asked for; its path may be missing too. -/
  csv : Option (Option Path) := none
  deriving DecidableEq, Repr

namespace BatchRequest

/-- The option for the directory of the mazes. -/
def mazeDirOption : OptionSpec := ⟨["--maze-dir"], true⟩

/-- The option for the file of the table. -/
def csvOption : OptionSpec := ⟨["--csv"], true⟩

/-- What the batch command understands. -/
def interface : Interface where
  options := [helpOption, mazeDirOption, csvOption]
  takesOperand := false

/-- A request after one more reading. -/
def step (r : BatchRequest) : Reading → Except Stop BatchRequest
  | .operand _ => .ok r
  | .option spec value =>
    let path := value.map Path.ofString
    if spec = mazeDirOption then .ok { r with mazeDir := path } else .ok { r with csv := some path }

/-- The request that a command line makes, for mazes that stand in `mazeDir` otherwise. -/
def ofArgs (mazeDir : Path) (args : List String) : Except Stop BatchRequest :=
  request interface step ⟨some mazeDir, none⟩ args

/-- The directory to look for mazes in. -/
def searched (r : BatchRequest) : Except Fault Path :=
  match r.mazeDir with
  | some dir => .ok dir
  | none => .error (.noPath "glob")

/-- Where the table is written, if anywhere: paths start from the root of the project. -/
def csvFile? (r : BatchRequest) (root : Path) : Except Fault (Option Path) :=
  match r.csv with
  | none => .ok none
  | some (some p) => .ok (some (p.under root))
  | some none => .error (.noPath "is_absolute")

end BatchRequest

/-- The lines before the table. -/
def heading (dir : Path) (count : Nat) : List Printed :=
  [.line s!"🧪 Solving {count} mazes from {dir.text}",
   .line (String.ofList (List.replicate 50 '='))]

/-- Solves the mazes of named texts from a directory and prints the table. -/
def printTable (dir : Path) (inputs : List (String × Except Fault String)) :
    Noted Printed (List Row) := do
  Noted.notesOf (heading dir inputs.length)
  let rows ← runBatch inputs standardModes
  Noted.notesOf ((tableText rows).map Printed.line)
  pure rows

/-- The manual of the batch command. -/
def batchManual : Manual where
  program := "keymaze-experiments"
  usage := ["usage: keymaze-experiments [-h] [--maze-dir MAZE_DIR] [--csv CSV]"]
  details :=
    ["",
     "Batch-solve maze files",
     "",
     "options:",
     "  -h, --help           show this help message and exit",
     "  --maze-dir MAZE_DIR",
     "  --csv CSV            write the table here (e.g. data/processed/results.csv)"]

/-- The bytes of the file that a table is written to. -/
def csvBytes (p : Path) (rows : List Row) : Except Fault (List UInt8) :=
  match Archive.pack? p.name (String.join ((csvLines rows).map (· ++ "\n"))).toUTF8.toList with
  | some bytes => .ok bytes
  | none => .error (.noPacker "zstandard")

/-- The line that names the file of a table. -/
def written (p : Path) : Printed := .line s!"✅ Wrote {p.text}"

/-- The request that the text of a path makes if it names a resource. -/
def resource? (p : Path) : Except Fault (Option Request) :=
  match Request.ofUrl? p.text with
  | .error d => .error (.badUrl d)
  | .ok r => .ok r

/-- The files after a table was written. All that is missing above the file is made; a tilde at the
front of its path stands for a home directory only after that. A path that names a resource is not
written to: the table is packed into a copy of what the resource holds, which is gone afterwards. -/
def storeTable (fs : Files) (cwd home p : Path) (rows : List Row) : Except Fault Files := do
  let fs ← fs.makeDirs cwd p.parent
  let target ← p.expandHome (homeOf? fs.accounts home)
  match ← resource? target with
  | some r =>
    let _ ← fs.fetch cwd r
    let _ ← csvBytes p rows
    pure fs
  | none =>
    if !fs.isDir cwd target.parent then throw (.noDirectory target.parent.text)
    let bytes ← csvBytes p rows
    fs.write cwd target bytes

/-- Runs a request over files held in memory; what is left are the files afterwards. -/
def batchRun (fs : Files) (cwd home root : Path) (r : BatchRequest) : Noted Printed Files := do
  let dir ← Noted.ofExcept r.searched
  let paths ← Noted.ofExcept (fs.listing cwd dir ".txt")
  let rows ← printTable dir (batchInputs fs cwd paths)
  match ← Noted.ofExcept (r.csvFile? root) with
  | none => pure fs
  | some p =>
    let fs ← Noted.ofExcept (storeTable fs cwd home p rows)
    Noted.note (written p)
    pure fs

/-- Runs the batch command over files held in memory. A fault leaves the lines printed before it;
the notes of the solves are not shown. -/
def batch (fs : Files) (cwd home root : Path) (args : List String) :
    List String × Except Fault (Outcome × Files) :=
  match BatchRequest.ofArgs root.mazeDir args with
  | .error stop =>
    let o := stop.outcome batchManual
    (o.out, .ok (o, fs))
  | .ok r =>
    let run := batchRun fs cwd home root r
    let out := Printed.lines false run.notes
    (out, run.outcome.map fun fs => (⟨0, out, []⟩, fs))

end GatedMaze.Command
