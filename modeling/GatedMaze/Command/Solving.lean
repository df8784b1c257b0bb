import GatedMaze.Command.Manual
import GatedMaze.Files
import GatedMaze.Solve

/-!
# The solving commands

One command solves a maze from a file or from its standard input and prints the number of moves.
Another one runs it for the user, with progress notes shown unless the environment or an option
turns them off.
-/

namespace GatedMaze.Command

/-- What the solving commands are asked to do. -/
structure SolveRequest where
  /-- The maze file; a dash stands for the standard input. -/
  maze : String := "-"
  /-- The number of agents, none when the option for it was given without a number. -/
  agents : Option Int := some 1
  split : Bool := false
  debug : Bool := false
  quiet : Bool := false
  deriving DecidableEq, Repr

namespace SolveRequest

/-- The option for the number of agents. -/
def agentsOption : OptionSpec := ⟨["--agents"], true⟩

/-- The option that splits the maze. -/
def splitOption : OptionSpec := ⟨["--split"], false⟩

/-- The option that turns notes on. -/
def debugOption : OptionSpec := ⟨["--debug"], false⟩

/-- The option that turns notes off. -/
def quietOption : OptionSpec := ⟨["--quiet"], false⟩

/-- What the solving commands understand. -/
def interface : Interface where
  options := [helpOption, agentsOption, splitOption, debugOption, quietOption]
  takesOperand := true

/-- The number of agents that a text asks for: one or four. -/
def agentsOf (text : String) : Except Stop Int :=
  match Text.readInt text with
  | .error _ => .error (.refusal (.badValue agentsOption text))
  | .ok n =>
    if n = 1 ∨ n = 4 then .ok n else .error (.refusal (.badChoice agentsOption n [1, 4]))

/-- A request after one more reading. -/
def step (r : SolveRequest) : Reading → Except Stop SolveRequest
  | .operand text => .ok { r with maze := text }
  | .option spec value =>
    if spec = agentsOption then
      match value with
      | none => .ok { r with agents := none }
      | some text => (agentsOf text).map fun n => { r with agents := some n }
    else if spec = splitOption then .ok { r with split := true }
    else if spec = debugOption then .ok { r with debug := true }
    else .ok { r with quiet := true }

/-- The request that a command line makes. -/
def ofArgs (args : List String) : Except Stop SolveRequest := request interface step {} args

/-- How the maze is to be solved: splitting it takes four agents. -/
def config (r : SolveRequest) : Except Fault Config :=
  if r.split then .ok { agents := 4, split := true }
  else
    match r.agents with
    | none => .error .noAgentCount
    | some n => .ok { agents := n }

/-- Whether notes are shown, given that they are when nothing else is said. -/
def shows (r : SolveRequest) (shown : Bool) : Bool :=
  if r.debug then true else if r.quiet then false else shown

/-- The setting for notes that a launched solver gets: that of its options, or else the one that
is there. -/
def setting (r : SolveRequest) (inherited : Option String) : Option String :=
  if r.debug then some "1" else if r.quiet then some "0" else inherited

/-- The maze file, none for the standard input. -/
def file? (r : SolveRequest) : Option Path :=
  if r.maze = "-" then none else some (.ofString r.maze)

/-- The end of a request, once the maze was read or could not be read. Conditions of the maze and
refusals of the file system are reported; no other fault is a matter of the user. -/
def finish (r : SolveRequest) (shown : Bool) (input : Except Fault (List UInt8)) :
    Except Fault Outcome :=
  let solved : Noted Note Plan := do
    let m ← Noted.ofExcept (input >>= Maze.ofBytes)
    let cfg ← Noted.ofExcept r.config
    m.solve cfg
  let out := if shown then solved.notes.map Note.line else []
  match solved.outcome with
  | .ok plan => .ok ⟨0, out ++ [toString plan.cost], []⟩
  | .error (.maze e) => .ok ⟨1, out, [s!"❌ {e.label}: {e.message}"]⟩
  | .error (.file t path) =>
    .ok ⟨1, out, ["❌ Cannot read maze: " ++ (Fault.file t path).message]⟩
  | .error e => .error e

end SolveRequest

/-- The manual of the command that solves a maze. -/
def solveManual : Manual where
  program := "keymaze"
  usage := ["usage: keymaze [-h] [--agents \x7b1,4\x7d] [--split] [--debug] [--quiet] [maze]"]
  details :=
    ["",
     "Minimum moves to collect every key in a gated maze",
     "",
     "positional arguments:",
     "  maze            maze file, or '-' to read standard input (default)",
     "",
     "options:",
     "  -h, --help      show this help message and exit",
     "  --agents \x7b1,4\x7d  one agent, or four agents with one quadrant each",
     "  --split         wall off the start into four starts before solving (implies",
     "                  --agents 4)",
     "  --debug         print progress lines",
     "  --quiet         print only the answer"]

/-- The manual of the command that runs the solver for the user. -/
def launchManual : Manual where
  program := "run_solver.py"
  usage :=
    ["usage: run_solver.py [-h] [--agents \x7b1,4\x7d] [--split] [--debug] [--quiet]",
     "                     [maze]"]
  details :=
    ["",
     "Run the maze key solver",
     "",
     "positional arguments:",
     "  maze            maze file, or '-' for standard input",
     "",
     "options:",
     "  -h, --help      show this help message and exit",
     "  --agents \x7b1,4\x7d  number of agents",
     "  --split         split the start into four before solving",
     "  --debug         Enable progress output (verbose)",
     "  --quiet         Disable progress output (clean)"]

/-- The manual of the solving command as the launching command runs it. -/
def workerManual : Manual where
  program := "simulator.py"
  usage := ["usage: simulator.py [-h] [--agents \x7b1,4\x7d] [--split] [--debug] [--quiet] [maze]"]
  details := solveManual.details

/-- Runs the solving command over files held in memory. The switch for notes is left as the options
set it; a command line that is refused leaves it alone. -/
def solve (fs : Files) (cwd : Path) (stdin : List UInt8) (shown : Bool) (args : List String) :
    Except Fault (Outcome × Bool) :=
  match SolveRequest.ofArgs args with
  | .error stop => .ok (stop.outcome solveManual, shown)
  | .ok r =>
    let input :=
      match r.file? with
      | none => .ok stdin
      | some p => fs.read cwd p
    (r.finish (r.shows shown) input).map fun o => (o, r.shows shown)

/-- The end of a command that meets a fault it has no words of its own for. -/
def broken (e : Fault) : Outcome := ⟨1, [], [e.message]⟩

namespace SolveRequest

/-- The maze file that a launched solver is told: the whole path from the root. -/
def wholeFile? (r : SolveRequest) (cwd : Path) : Except Fault (Option Path) :=
  match r.file? with
  | none => .ok none
  | some p => if p.hasNull then .error .nullCharacter else .ok (some (p.under cwd).collapse)

/-- The end of a launched solver, which reads the environment first and its options then. The
number of agents is among these even when it is missing. -/
def launched (r : SolveRequest) (inherited : Option String) (input : Except Fault (List UInt8)) :
    Outcome :=
  match showsNotes (r.setting inherited) with
  | .error e => broken e
  | .ok shown =>
    if r.agents.isNone then workerManual.refused (.badValue agentsOption "[]")
    else
      match r.finish shown input with
      | .ok o => o
      | .error e => broken e

end SolveRequest

/-- Runs the launching command over files held in memory. Options are passed on through the
environment, which holds no null character, and the maze file is found from the working directory
first. -/
def launch (fs : Files) (cwd : Path) (stdin : List UInt8) (inherited : Option String)
    (args : List String) : Except Fault Outcome :=
  if inherited.any Text.hasNull then .error .nullCharacter
  else
    match SolveRequest.ofArgs args with
    | .error stop => .ok (stop.outcome launchManual)
    | .ok r =>
      match r.wholeFile? cwd with
      | .error e => .error e
      | .ok none => .ok (r.launched inherited (.ok stdin))
      | .ok (some p) => .ok (r.launched inherited (fs.read cwd p))

end GatedMaze.Command
