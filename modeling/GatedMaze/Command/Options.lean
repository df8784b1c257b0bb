import GatedMaze.Text.Digit
import GatedMaze.Text.Quoted

/-!
# Reading command lines

A command line is options, with or without a value, and at most one operand. A long option may be
cut short as long as only one option starts that way, its value may follow after an equals sign or
as the next argument, and short options without values may share one dash. After a double dash
everything is an operand. A dash by itself and a negative number are operands too. A double dash
that is attached to an option as its value is taken away, which leaves the option without one.
-/

namespace GatedMaze.Command

/-- An option by its names, and whether a value belongs to it. -/
structure OptionSpec where
  names : List String
  takesValue : Bool
  deriving DecidableEq, Repr

/-- An option as messages call it. -/
def OptionSpec.label (spec : OptionSpec) : String := "/".intercalate spec.names

/-- The options a command knows, and whether it takes an operand. -/
structure Interface where
  options : List OptionSpec
  takesOperand : Bool

/-- What an argument is by itself. -/
inductive Shape where
  | operand
  /-- The double dash. -/
  | separator
  /-- An option under one of its names, with what is attached to it. -/
  | option (spec : OptionSpec) (name : String) (attached : Option String)
  /-- What looks like an option but is none. -/
  | unknown
  deriving DecidableEq, Repr

/-- One thing that a command line says. -/
inductive Reading where
  | option (spec : OptionSpec) (value : Option String)
  | operand (text : String)
  deriving DecidableEq, Repr

/-- Why a command line is refused. -/
inductive Refusal where
  | ambiguous (arg : String) (names : List String)
  | missingValue (spec : OptionSpec)
  | unwantedValue (spec : OptionSpec) (value : String)
  | badValue (spec : OptionSpec) (value : String)
  | badChoice (spec : OptionSpec) (value : Int) (choices : List Int)
  | unrecognized (args : List String)
  deriving DecidableEq, Repr

/-- The wording of a refusal. -/
def Refusal.message : Refusal → String
  | ambiguous arg names => s!"ambiguous option: {arg} could match " ++ ", ".intercalate names
  | missingValue spec => s!"argument {spec.label}: expected one argument"
  | unwantedValue spec value =>
    s!"argument {spec.label}: ignored explicit argument " ++ Text.quote value
  | badValue spec value => s!"argument {spec.label}: invalid int value: " ++ Text.quote value
  | badChoice spec value choices =>
    s!"argument {spec.label}: invalid choice: {value} (choose from "
      ++ ", ".intercalate (choices.map toString) ++ ")"
  | unrecognized args => "unrecognized arguments: " ++ " ".intercalate args

/-- What was read from a command line, in turn, up to a refusal if there was one, and the
arguments that mean nothing to the command. -/
structure Scan where
  readings : List Reading
  extras : List String
  refusal : Option Refusal

namespace Scan

/-- Nothing read. -/
def nil : Scan := ⟨[], [], none⟩

/-- A scan that stops at once. -/
def refuse (r : Refusal) : Scan := ⟨[], [], some r⟩

/-- A scan after more readings. -/
def after (rs : List Reading) (s : Scan) : Scan := { s with readings := rs ++ s.readings }

/-- A scan after an argument that means nothing. -/
def afterExtra (a : String) (s : Scan) : Scan := { s with extras := a :: s.extras }

end Scan

namespace Interface

/-- All names with their options. -/
def table (i : Interface) : List (String × OptionSpec) :=
  i.options.flatMap fun spec => spec.names.map fun n => (n, spec)

/-- The option of a name. -/
def named? (i : Interface) (name : String) : Option OptionSpec := i.table.lookup name

/-- A text before and after its first equals sign. -/
def cutAtEquals (text : List Char) : String × Option String :=
  (String.ofList (text.takeWhile (· != '=')),
    match text.dropWhile (· != '=') with
    | [] => none
    | _ :: value => some (String.ofList value))

/-- Whether an argument is a negative number: a dash and digits, with a point before some of them
if at all. -/
def isNegativeNumber (arg : List Char) : Bool :=
  let isDigit (c : Char) := (Text.digitValue? c).isSome
  let body (cs : List Char) : Bool :=
    match cs.dropWhile isDigit with
    | [] => !cs.isEmpty
    | '.' :: decimals => !decimals.isEmpty && decimals.all isDigit
    | _ => false
  match arg with
  -- one line feed after the number does no harm
  | '-' :: cs => body cs || (cs.getLast? == some '\n' && body cs.dropLast)
  | _ => false

/-- The options an argument may stand for when it is no full name: each with its full name and
what is attached to it. -/
def candidates (i : Interface) (arg : List Char) : List (OptionSpec × String × Option String) :=
  match arg with
  | '-' :: '-' :: _ =>
    let (start, value) := cutAtEquals arg
    i.table.filterMap fun (name, spec) =>
      if start.toList.isPrefixOf name.toList then some (spec, name, value) else none
  | _ =>
    i.table.filterMap fun (name, spec) =>
      if name.toList = arg.take 2 then some (spec, name, some (String.ofList (arg.drop 2)))
      else if arg.isPrefixOf name.toList then some (spec, name, none)
      else none

/-- What an argument that starts with a dash, and is more than a dash, is by itself. -/
def dashedShape (i : Interface) (arg : String) : Except Refusal Shape :=
  let cut := cutAtEquals arg.toList
  match i.named? arg with
  | some spec => .ok (.option spec arg none)
  | none =>
    match cut.2, i.named? cut.1 with
    | some value, some spec => .ok (.option spec cut.1 (some value))
    | _, _ =>
      match i.candidates arg.toList with
      | [(spec, name, attached)] => .ok (.option spec name attached)
      | [] =>
        if isNegativeNumber arg.toList || arg.toList.contains ' ' then .ok .operand
        else .ok .unknown
      | several => .error (.ambiguous arg (several.map (·.2.1)))

/-- What an argument is by itself. -/
def shape (i : Interface) (arg : String) : Except Refusal Shape :=
  match arg.toList with
  | '-' :: _ :: _ => i.dashedShape arg
  | _ => .ok .operand

/-- What each argument is by itself; after the first double dash all are operands. -/
def shapes (i : Interface) : List String → Except Refusal (List (String × Shape))
  | [] => .ok []
  | "--" :: args => .ok (("--", .separator) :: args.map fun a => (a, .operand))
  | a :: args => do
    let s ← i.shape a
    let rest ← i.shapes args
    pure ((a, s) :: rest)

/-- What an option without a value says by itself; one with a value finds it in the next argument,
and is named for that. -/
def bare (spec : OptionSpec) : List Reading × Option OptionSpec :=
  if spec.takesValue then ([], some spec) else ([.option spec none], none)

/-- The value that is attached to an option, none for a double dash. -/
def attachedValue (text : List Char) : Option String :=
  if text = ['-', '-'] then none else some (String.ofList text)

/-- Reads the text attached to an option: its value, or, for a short option without a value, the
short options that share its dash. The last of these may ask for a value in the next argument. -/
def group (i : Interface) (spec : OptionSpec) (short : Bool) :
    List Char → Except Refusal (List Reading × Option OptionSpec)
  | [] => if spec.takesValue then .ok ([.option spec (some "")], none)
    else .error (.unwantedValue spec "")
  | c :: rest =>
    if spec.takesValue then .ok ([.option spec (attachedValue (c :: rest))], none)
    else if !short then .error (.unwantedValue spec (String.ofList (c :: rest)))
    else
      match i.named? (String.ofList ['-', c]) with
      | none => .error (.unwantedValue spec (String.ofList (c :: rest)))
      | some next =>
        let more := if rest.isEmpty then .ok (bare next) else i.group next true rest
        more.map fun r => (.option spec none :: r.1, r.2)

/-- Reads an option with the text attached to it, if any. -/
def readOption (i : Interface) (spec : OptionSpec) (name : String) :
    Option String → Except Refusal (List Reading × Option OptionSpec)
  | none => .ok (bare spec)
  | some text => i.group spec (name.length == 2) text.toList

/-- Reads arguments from left to right; `room` says whether an operand can still be taken. A
double dash goes with the operand next to it. -/
def scanShapes (i : Interface) (room : Bool) : List (String × Shape) → Scan
  | [] => .nil
  | (a, .unknown) :: rest => (i.scanShapes room rest).afterExtra a
  | (a, .operand) :: rest =>
    if room then
      match rest with
      | (_, .separator) :: rest => (i.scanShapes false rest).after [.operand a]
      | rest => (i.scanShapes false rest).after [.operand a]
    else (i.scanShapes room rest).afterExtra a
  | (a, .separator) :: rest =>
    if room then
      match rest with
      | [] => .nil
      | (operand, _) :: rest => (i.scanShapes false rest).after [.operand operand]
    else (i.scanShapes room rest).afterExtra a
  | (_, .option spec name attached) :: rest =>
    match i.readOption spec name attached with
    | .error r => .refuse r
    | .ok (rs, none) => (i.scanShapes room rest).after rs
    | .ok (rs, some next) =>
      match rest with
      | (value, .operand) :: rest =>
        (i.scanShapes room rest).after (rs ++ [.option next (some value)])
      | _ => .refuse (.missingValue next)
termination_by args => args.length

/-- Reads a command line. -/
def scan (i : Interface) (args : List String) : Scan :=
  match i.shapes args with
  | .error r => .refuse r
  | .ok shapes => i.scanShapes i.takesOperand shapes

end Interface

end GatedMaze.Command
