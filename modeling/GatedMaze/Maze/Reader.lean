import GatedMaze.Fault
import GatedMaze.Maze
import GatedMaze.Text.Blank

/-!
# Reading a maze

A maze text is a rectangle of cell characters; carriage returns at the ends of lines and blank
lines around the rectangle do not count. Of several defects the first in this order is reported:
no line at all, a line of another length than the first, the first unknown character or repeated
key row by row, no start.
-/

namespace GatedMaze.Maze

/-- The lines of a text that draw the maze. -/
def drawnLines (text : String) : List (List Char) :=
  Text.dropBlankEnds ((Text.splitLines text.toList).map Text.dropReturns)

/-- The first line that is not as long as it should be, with its number and its length. -/
def raggedLine? (width : Nat) : Nat → List (List Char) → Option (Nat × Nat)
  | _, [] => none
  | r, line :: lines =>
    if line.length = width then raggedLine? width (r + 1) lines else some (r, line.length)

/-- The characters of a line from a place on, each with its place. -/
def placedLine (r : Nat) : Nat → List Char → List (Coord × Char)
  | _, [] => []
  | c, ch :: line => (⟨r, c⟩, ch) :: placedLine r (c + 1) line

/-- The characters of lines, each with its place, row by row. -/
def placed : Nat → List (List Char) → List (Coord × Char)
  | _, [] => []
  | r, line :: lines => placedLine r 0 line ++ placed (r + 1) lines

/-- The cells that characters draw, given the keys that were drawn before. -/
def decode (drawn : List Letter) : List (Coord × Char) → Except Fault (List Cell)
  | [] => .ok []
  | (p, ch) :: rest =>
    match Cell.ofChar? ch with
    | none => .error (.defectAt (.unknownCharacter ch) p)
    | some cell =>
      match cell.key? with
      | some k =>
        if k ∈ drawn then .error (.defectAt (.repeatedKey ch) p)
        else (decode (k :: drawn) rest).map (cell :: ·)
      | none => (decode drawn rest).map (cell :: ·)

theorem length_of_raggedLine? {width r : Nat} {lines : List (List Char)}
    (h : raggedLine? width r lines = none) : ∀ l ∈ lines, l.length = width := by
  induction lines generalizing r with
  | nil => simp
  | cons line lines ih =>
    unfold raggedLine? at h
    split at h
    · next hw => exact List.forall_mem_cons.2 ⟨hw, ih h⟩
    · simp at h

theorem length_placedLine (r c : Nat) (line : List Char) :
    (placedLine r c line).length = line.length := by
  induction line generalizing c with
  | nil => rfl
  | cons ch line ih => simp [placedLine, ih]

theorem length_placed {width r : Nat} {lines : List (List Char)}
    (h : ∀ l ∈ lines, l.length = width) : (placed r lines).length = lines.length * width := by
  induction lines generalizing r with
  | nil => simp [placed]
  | cons line lines ih =>
    rw [List.forall_mem_cons] at h
    rw [placed, List.length_append, length_placedLine, ih h.2, h.1, List.length_cons, Nat.add_mul]
    omega

/-- What a successful reading of one more character says. -/
theorem decode_cons {drawn : List Letter} {p : Coord} {ch : Char} {rest : List (Coord × Char)}
    {cells : List Cell} (h : decode drawn ((p, ch) :: rest) = .ok cells) :
    ∃ cell cells', cells = cell :: cells' ∧ Cell.ofChar? ch = some cell ∧
      ((cell.key? = none ∧ decode drawn rest = .ok cells') ∨
        ∃ k, cell.key? = some k ∧ k ∉ drawn ∧ decode (k :: drawn) rest = .ok cells') := by
  rw [decode] at h
  split at h
  · simp at h
  · next cell hc =>
    split at h
    · next k hk =>
      split at h
      · simp at h
      · next hn =>
        cases hd : decode (k :: drawn) rest with
        | error e => simp [hd, Except.map] at h
        | ok cells' =>
          rw [hd] at h
          exact ⟨cell, cells', (Except.ok.inj h).symm, hc, .inr ⟨k, hk, hn, hd⟩⟩
    · next hk =>
      cases hd : decode drawn rest with
      | error e => simp [hd, Except.map] at h
      | ok cells' =>
        rw [hd] at h
        exact ⟨cell, cells', (Except.ok.inj h).symm, hc, .inl ⟨hk, rfl⟩⟩

theorem length_decode {drawn : List Letter} {xs : List (Coord × Char)} {cells : List Cell}
    (h : decode drawn xs = .ok cells) : cells.length = xs.length := by
  induction xs generalizing drawn cells with
  | nil => simp only [decode, Except.ok.injEq] at h; simp [← h]
  | cons x xs ih =>
    obtain ⟨cell, cells', rfl, -, ⟨-, hd⟩ | ⟨k, -, -, hd⟩⟩ := decode_cons h <;> simp [ih hd]

/-- **No key letter is read twice**, nor one that was drawn before. -/
theorem nodup_decode {drawn : List Letter} {xs : List (Coord × Char)} {cells : List Cell}
    (h : decode drawn xs = .ok cells) :
    (cells.filterMap Cell.key?).Nodup ∧ ∀ k ∈ cells.filterMap Cell.key?, k ∉ drawn := by
  induction xs generalizing drawn cells with
  | nil => simp only [decode, Except.ok.injEq] at h; simp [← h]
  | cons x xs ih =>
    obtain ⟨cell, cells', rfl, -, ⟨hk, hd⟩ | ⟨k, hk, hn, hd⟩⟩ := decode_cons h
    · rw [List.filterMap_cons_none hk]; exact ih hd
    · rw [List.filterMap_cons_some hk]
      obtain ⟨h1, h2⟩ := ih hd
      refine ⟨List.nodup_cons.2 ⟨fun hm => h2 k hm List.mem_cons_self, h1⟩, ?_⟩
      intro j hj
      rcases List.mem_cons.1 hj with rfl | hj
      · exact hn
      · exact fun hd' => h2 j hj (List.mem_cons_of_mem _ hd')

/-- The maze that lines draw. -/
def ofLines (lines : List (List Char)) : Except Fault Maze :=
  match lines with
  | [] => .error (.defectOf .empty)
  | first :: _ =>
    match hr : raggedLine? first.length 0 lines with
    | some (r, found) =>
      .error (.defectAt (.width found first.length) ⟨r, (min found first.length : Nat)⟩)
    | none =>
      match hd : decode [] (placed 0 lines) with
      | .error e => .error e
      | .ok cells =>
        if Cell.start ∈ cells then
          .ok
            { board :=
                { rows := lines.length
                  cols := first.length
                  cells := cells.toArray
                  size_cells := by
                    rw [List.size_toArray, length_decode hd,
                      length_placed (length_of_raggedLine? hr)] }
              keys_nodup := (nodup_decode hd).1 }
        else .error (.defectOf .noStart)

/-- The maze that a text draws. -/
def ofText (text : String) : Except Fault Maze := ofLines (drawnLines text)

/-- The text of a file of ASCII characters. -/
def asciiText (bytes : List UInt8) : Except Fault String :=
  match bytes.zipIdx.find? fun b => 0x80 ≤ b.1 with
  | some (byte, offset) => .error (.defectOf (.notAscii byte.toNat offset))
  | none => .ok (String.ofList (bytes.map fun b => Char.ofNat b.toNat))

/-- The maze that a file draws. -/
def ofBytes (bytes : List UInt8) : Except Fault Maze := asciiText bytes >>= ofText

end GatedMaze.Maze
