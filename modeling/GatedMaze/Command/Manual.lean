import GatedMaze.Command.Options

/-!
# How commands end

A command ends with an exit code, lines for its standard output and lines for its standard error.
Asking for help and a command line that is refused end a command at once.
-/

namespace GatedMaze.Command

/-- How a command ends. -/
structure Outcome where
  exit : Nat
  out : List String
  err : List String
  deriving DecidableEq, Repr

/-- What a command tells about itself. -/
structure Manual where
  program : String
  usage : List String
  /-- What help shows below the usage. -/
  details : List String

namespace Manual

/-- The end of a command that was asked for help. -/
def helped (m : Manual) : Outcome := ⟨0, m.usage ++ m.details, []⟩

/-- The end of a command whose command line is refused. -/
def refused (m : Manual) (r : Refusal) : Outcome :=
  ⟨2, [], m.usage ++ [s!"{m.program}: error: {r.message}"]⟩

end Manual

/-- Why a command ends before it starts its work. -/
inductive Stop where
  | help
  | refusal (r : Refusal)
  deriving DecidableEq, Repr

/-- The option that asks for help, which every command has. -/
def helpOption : OptionSpec := ⟨["-h", "--help"], false⟩

/-- Reads a command line into a request: each reading changes the request or ends the command;
what is wrong with the command line as a whole comes after that. -/
def request {σ : Type} (i : Interface) (step : σ → Reading → Except Stop σ) (start : σ)
    (args : List String) : Except Stop σ := do
  let scan := i.scan args
  let result ← scan.readings.foldlM
    (fun r reading => if reading = .option helpOption none then throw .help else step r reading)
    start
  match scan.refusal, scan.extras with
  | some r, _ => throw (.refusal r)
  | none, [] => pure result
  | none, extras => throw (.refusal (.unrecognized extras))

/-- The end of a command that stops early. -/
def Stop.outcome (m : Manual) : Stop → Outcome
  | help => m.helped
  | refusal r => m.refused r

end GatedMaze.Command
