/-!
# Cells

A maze is drawn with one character for each cell: a wall, open floor, a start, one of 26 keys or
one of 26 gates. A gate is opened by the key of the same letter. Main statement:

* `Cell.ofGlyph?_eq_some_iff`: a character is the drawing of at most one cell, and every cell has
  its character.
-/

namespace GatedMaze

/-- A letter of the alphabet, counted from zero: the id of a key and of the gates it opens. -/
abbrev Letter := Fin 26

/-- What stands at one place of a maze. -/
inductive Cell where
  | wall
  | floor
  | start
  | key (k : Letter)
  | gate (g : Letter)
  deriving DecidableEq, Repr

namespace Cell

/-- Everything but a wall can be walked on. -/
def passable : Cell → Bool
  | wall => false
  | _ => true

/-- The key that lies on a cell. -/
def key? : Cell → Option Letter
  | key k => some k
  | _ => none

/-- The gate that a cell is. -/
def gate? : Cell → Option Letter
  | gate g => some g
  | _ => none

/-- The code point a cell is drawn with. -/
def glyph : Cell → Nat
  | wall => 0x23
  | floor => 0x2E
  | start => 0x40
  | key k => 0x61 + k
  | gate g => 0x41 + g

/-- The cell that a code point draws. -/
def ofGlyph? (n : Nat) : Option Cell :=
  if n = 0x23 then some wall
  else if n = 0x2E then some floor
  else if n = 0x40 then some start
  else if h : 0x61 ≤ n ∧ n ≤ 0x7A then some (key ⟨n - 0x61, by omega⟩)
  else if h : 0x41 ≤ n ∧ n ≤ 0x5A then some (gate ⟨n - 0x41, by omega⟩)
  else none

theorem ofGlyph?_glyph (c : Cell) : ofGlyph? c.glyph = some c := by
  cases c with
  | wall => rfl
  | floor => rfl
  | start => rfl
  | key k => revert k; decide
  | gate g => revert g; decide

theorem glyph_of_ofGlyph? {n : Nat} {c : Cell} (h : ofGlyph? n = some c) : c.glyph = n := by
  unfold ofGlyph? at h
  split at h
  · next e => simp_all [glyph, ← Option.some.inj h]
  split at h
  · next e => simp_all [glyph, ← Option.some.inj h]
  split at h
  · next e => simp_all [glyph, ← Option.some.inj h]
  split at h
  · next e => simp [glyph, ← Option.some.inj h]; omega
  split at h
  · next e => simp [glyph, ← Option.some.inj h]; omega
  · simp at h

/-- **Cells and their drawings determine each other.** -/
theorem ofGlyph?_eq_some_iff {n : Nat} {c : Cell} : ofGlyph? n = some c ↔ c.glyph = n :=
  ⟨glyph_of_ofGlyph?, fun h => h ▸ ofGlyph?_glyph c⟩

/-- The character a cell is drawn with. -/
def char (c : Cell) : Char := Char.ofNat c.glyph

/-- The cell that a character draws. -/
def ofChar? (c : Char) : Option Cell := ofGlyph? c.toNat

end Cell

end GatedMaze
