import GatedMaze.Batch

/-!
# Tables of a batch

The rows of a batch as a table for reading and as comma-separated values. A column of numbers is
one of whole numbers only while every row has one: next to a missing number all others are written
with a decimal place.
-/

namespace GatedMaze

/-- A column of a table: its name, whether it is one of numbers, and its texts row by row. -/
structure Column where
  name : String
  numeric : Bool
  texts : List String
  deriving DecidableEq, Repr

/-- The names of the columns. -/
def columnNames : List String :=
  ["maze", "mode", "keys", "cost", "order", "states", "seconds", "status"]

/-- How missing values of a table are written: in a column of numbers next to numbers, and in any
other column. -/
structure MissingText where
  number : String
  value : String

/-- A table for reading names what is missing. -/
def MissingText.shown : MissingText := ⟨"NaN", "None"⟩

/-- Comma-separated values leave out what is missing. -/
def MissingText.leftOut : MissingText := ⟨"", ""⟩

/-- A column of numbers of which some may be missing; without any number it is one of values. -/
def numberColumn (missing : MissingText) (name : String) (ns : List (Option Int)) : Column :=
  -- an empty column counts as one of whole numbers
  let whole := ns.all Option.isSome
  let absent := ns.all Option.isNone && !ns.isEmpty
  ⟨name, !absent, ns.map fun n =>
    match n with
    | some n => if whole then toString n else s!"{n}.0"
    | none => if absent then missing.value else missing.number⟩

/-- The columns of a table. Durations are not measured. -/
def columns (missing : MissingText) (rows : List Row) : List Column :=
  let plans := rows.map Row.plan?
  [⟨"maze", false, rows.map Row.maze⟩,
   ⟨"mode", false, rows.map Row.mode⟩,
   ⟨"keys", true, rows.map fun r => toString r.keys⟩,
   numberColumn missing "cost" (plans.map fun p => p.map Plan.cost),
   ⟨"order", false,
    plans.map fun p => (p.map fun p => letters p.order).getD missing.value⟩,
   numberColumn missing "states" (plans.map fun p => p.map fun p => (p.states : Int)),
   ⟨"seconds", true, rows.map fun _ => "0.0"⟩,
   ⟨"status", false, rows.map Row.status⟩]

/-- A text moved to the right end of a field. -/
def padLeft (width : Nat) (text : String) : String :=
  String.ofList (List.replicate (width - text.length) ' ') ++ text

/-- A text with the characters that would break a line written out. -/
def unbroken (text : String) : String :=
  String.join (text.toList.map fun c =>
    if c = '\t' then "\\t" else if c = '\n' then "\\n" else if c = '\r' then "\\r"
    else c.toString)

/-- The fields of a column below its name, moved to the right and as wide as the widest of them.
The name of a column of numbers keeps one blank before it. -/
def Column.fields (c : Column) : List String :=
  let fields := (if c.numeric then " " ++ c.name else c.name) :: c.texts.map unbroken
  let width := (fields.map String.length).foldl max 0
  fields.map (padLeft width)

/-- The table of a batch for reading. -/
def tableText (rows : List Row) : List String :=
  if rows.isEmpty then
    ["Empty DataFrame", "Columns: [" ++ ", ".intercalate columnNames ++ "]", "Index: []"]
  else
    let fields := (columns .shown rows).map Column.fields
    (List.range (rows.length + 1)).map fun r =>
      " ".intercalate (fields.map fun col => col[r]?.getD "")

/-- A field of comma-separated values; one with a mark of the format in it is quoted, with its
quotes doubled. -/
def csvField (text : String) : String :=
  let quoteChar := Text.doubleQuote
  let marked := text.toList.any fun c => c = ',' || c = quoteChar || c = '\n'
  if marked then
    String.ofList (quoteChar ::
      (text.toList.flatMap fun c => if c = quoteChar then [c, c] else [c]) ++ [quoteChar])
  else text

/-- The rows of a batch as comma-separated values, below the names of the columns. -/
def csvLines (rows : List Row) : List String :=
  let cols := (columns .leftOut rows).map Column.texts
  ",".intercalate columnNames ::
    (List.range rows.length).map fun r =>
      ",".intercalate (cols.map fun col => csvField (col[r]?.getD ""))

end GatedMaze
