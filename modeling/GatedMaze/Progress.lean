import GatedMaze.Fault
import GatedMaze.Maze
import GatedMaze.Text.Null

/-!
# Progress notes

A solve leaves notes behind, one for each thing it has found out, each filed under the stage of
the solve it belongs to. Whether the notes are shown is a switch of their reader; a computation
that leaves notes is a `Noted` value, which keeps the notes of a failed computation too. Main
statements:

* `Noted.notes_bind`, `Noted.outcome_bind`: what one computation and then another leave behind;
* `Noted.writable_eq`: a computation whose notes can be written is left as it is.
-/

namespace GatedMaze

/-- The stages that a solve passes through. -/
inductive Stage where
  | maze
  | pairs
  | quadrants
  | levels
  | replay
  | result
  deriving DecidableEq, Repr

namespace Stage

/-- The stages in the order in which a solve passes through them. -/
def all : List Stage := [.maze, .pairs, .quadrants, .levels, .replay, .result]

/-- The tag of a stage. -/
def name : Stage → String
  | maze => "maze"
  | pairs => "pairs"
  | quadrants => "quadrants"
  | levels => "dp"
  | replay => "replay"
  | result => "result"

/-- The stage of a tag. -/
def ofName? (name : String) : Option Stage := all.find? fun s => s.name == name

/-- A message under the tag of its stage. -/
def tagged (s : Stage) (message : String) : String := s!"[{s.name}] {message}"

end Stage

/-- What a solve has found out. -/
inductive Note where
  /-- The size of the maze and its keys. -/
  | maze (rows cols : Nat) (keys : List Int)
  /-- A row of the drawing of a maze that was split. -/
  | row (drawing : String)
  /-- How many keys and starts there are and how many pairs of them a path joins. -/
  | pairs (keys starts joined : Nat)
  /-- How many keys lie in each quadrant. -/
  | quadrants (sizes : List Nat)
  /-- How many states with `size` of `total` keys can be reached. -/
  | level (size total resolved : Nat)
  /-- A key fetched from `origin`, and the moves made so far. -/
  | pickup (origin key distance walked : Int)
  /-- The moves and the order of the plan. -/
  | result (cost : Int) (order : List Int)
  deriving DecidableEq, Repr

namespace Note

/-- The stage a note is filed under; rows of a drawing stand by themselves. -/
def stage? : Note → Option Stage
  | maze .. => some .maze
  | row _ => none
  | pairs .. => some .pairs
  | quadrants _ => some .quadrants
  | level .. => some .levels
  | pickup .. => some .replay
  | result .. => some .result

/-- The wording of a note. -/
def message : Note → String
  | maze rows cols keys => s!"🔍 Maze {rows}x{cols}, keys: {lettersOrDash keys}"
  | row drawing => drawing
  | pairs keys starts joined =>
    s!"🔗 Pair table: {keys} keys, {starts} start cell(s), {joined} reachable pairs"
  | quadrants sizes => s!"🧭 Quadrants: key counts {Text.listed (sizes.map Int.ofNat)}"
  | level size total resolved => s!"📐 Level {size}/{total}: {resolved} states resolved"
  | pickup origin key distance walked => s!"🔑 {origin} -> {key}: +{distance} (total {walked})"
  | result cost order => s!"🎯 Result: {cost} moves, order {lettersOrDash order}"

/-- A note as the line that shows it. -/
def line (n : Note) : String :=
  match n.stage? with
  | some s => s.tagged n.message
  | none => n.message

/-- Whether the numbers of a note have no more digits than are written out. Only the moves made on a
walk can grow beyond the numbers that were read. -/
def isWritable : Note → Bool
  | pickup _ _ _ walked => walked.natAbs < Nat.pow 10 Text.digitLimit
  | _ => true

end Note

/-- The notes that a computation leaves behind, and its outcome. -/
structure Noted (ν α : Type) where
  notes : List ν
  outcome : Except Fault α

namespace Noted

variable {ν μ α β : Type}

/-- A computation that leaves no notes. -/
def ofExcept (e : Except Fault α) : Noted ν α := ⟨[], e⟩

/-- A note by itself. -/
def note (n : ν) : Noted ν Unit := ⟨[n], .ok ()⟩

/-- Notes by themselves. -/
def notesOf (ns : List ν) : Noted ν Unit := ⟨ns, .ok ()⟩

/-- One computation and then another, which is left out when the first fails. -/
def andThen (x : Noted ν α) (f : α → Noted ν β) : Noted ν β :=
  match x.outcome with
  | .error e => ⟨x.notes, .error e⟩
  | .ok a => ⟨x.notes ++ (f a).notes, (f a).outcome⟩

instance : Monad (Noted ν) where
  pure a := ⟨[], .ok a⟩
  bind := andThen

/-- The same computation with every note changed. -/
def mapNotes (f : ν → μ) (x : Noted ν α) : Noted μ α := ⟨x.notes.map f, x.outcome⟩

/-- The computation that goes on with the fault of another, if it has one. -/
def caught (x : Noted ν α) : Noted ν (Except Fault α) := ⟨x.notes, .ok x.outcome⟩

/-- The same computation, ended by the first note that cannot be written. -/
def writable (x : Noted Note α) : Noted Note α :=
  if x.notes.all Note.isWritable then x
  else ⟨x.notes.takeWhile Note.isWritable, .error .unwritable⟩

/-- **A computation whose notes can be written is left as it is.** -/
theorem writable_eq {x : Noted Note α} (h : ∀ n ∈ x.notes, n.isWritable = true) :
    x.writable = x := by
  rw [writable, if_pos (List.all_eq_true.2 h)]

theorem notes_bind (x : Noted ν α) (f : α → Noted ν β) :
    (x >>= f).notes =
      match x.outcome with
      | .error _ => x.notes
      | .ok a => x.notes ++ (f a).notes := by
  show (andThen x f).notes = _
  unfold andThen; split <;> simp_all

theorem outcome_bind (x : Noted ν α) (f : α → Noted ν β) :
    (x >>= f).outcome = x.outcome.bind fun a => (f a).outcome := by
  show (andThen x f).outcome = _
  unfold andThen Except.bind; split <;> simp_all

end Noted

/-- The switch for progress notes, as an environment variable sets it: on when it is unset, off
when it holds a zero. -/
def showsNotes (setting : Option String) : Except Fault Bool :=
  match setting with
  | none => .ok true
  | some text =>
    if Text.hasNull text then .error .nullCharacter
    else
      match Text.readInt text with
      | .ok n => .ok (n != 0)
      | .error .malformed => .error (.notWhole text)
      | .error (.tooLong digits) => .error (.tooManyDigits digits)

/-- A message under the tag of a stage, as it is printed when notes are shown. -/
def announce (shown : Bool) (stage message : String) : Except Fault String :=
  match Stage.ofName? stage with
  | none => .error (.unknownStage stage)
  | some s => .ok (if shown then s.tagged message ++ "\n" else "")

end GatedMaze
