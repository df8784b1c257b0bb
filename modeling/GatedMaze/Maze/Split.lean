import GatedMaze.Fault
import GatedMaze.Maze

/-!
# Splitting a maze around its start

A maze with one start on open floor is cut into four: the cross through the start becomes wall and
the four corners around it become starts.
-/

namespace GatedMaze.Maze

/-- Whether `p` lies in the block of nine cells around `s`. -/
def InBlock (s p : Coord) : Prop :=
  s.row - 1 ≤ p.row ∧ p.row ≤ s.row + 1 ∧ s.col - 1 ≤ p.col ∧ p.col ≤ s.col + 1

instance (s p : Coord) : Decidable (InBlock s p) := by unfold InBlock; infer_instance

/-- The eight neighbours of a place, row by row. -/
def ring (s : Coord) : List Coord :=
  [s.shift (-1) (-1), s.shift (-1) 0, s.shift (-1) 1, s.shift 0 (-1), s.shift 0 1,
   s.shift 1 (-1), s.shift 1 0, s.shift 1 1]

theorem mem_ring {s p : Coord} (h : InBlock s p) (hne : p ≠ s) : p ∈ ring s := by
  obtain ⟨h1, h2, h3, h4⟩ := h
  cases p with
  | mk r c =>
    cases s with
    | mk sr sc =>
      simp only [ne_eq, Coord.mk.injEq] at *
      simp only [ring, Coord.shift, List.mem_cons, List.not_mem_nil, Coord.mk.injEq, or_false]
      omega

/-- What a split puts at a place: in the block around the start walls in the start's row and
column and starts in the corners, elsewhere what was there. -/
def splitCell (s p : Coord) (c : Cell) : Cell :=
  if InBlock s p then if p.row = s.row ∨ p.col = s.col then .wall else .start else c

/-- A change of cells that touches no key keeps the keys distinct. -/
theorem nodup_keys_mapPlaces {b : Board Cell} {f : Coord → Cell → Cell}
    (hf : ∀ p c, b.get? p = some c → (f p c).key? = c.key?)
    (hb : (b.cells.toList.filterMap Cell.key?).Nodup) :
    ((b.mapPlaces f).cells.toList.filterMap Cell.key?).Nodup := by
  -- slot by slot there is the same key, if any, before and after
  have : (b.mapPlaces f).cells.toList.map Cell.key? = b.cells.toList.map Cell.key? := by
    apply List.ext_getElem
    · simp [Board.mapPlaces]
    · intro i h1 h2
      have hi : i < b.cells.size := by simpa using h2
      simp only [List.getElem_map, Array.getElem_toList, Board.mapPlaces, Array.getElem_mapIdx]
      apply hf
      rw [Board.get?_of_holds (Board.holds_place hi), Board.slot_place, Array.getElem?_eq_getElem hi]
  have e : ∀ l : List Cell, l.filterMap Cell.key? = (l.map Cell.key?).filterMap id := by
    intro l; rw [List.filterMap_map]; rfl
  rw [e, this, ← e]
  exact hb

/-- The maze split around its start. -/
def split (m : Maze) : Except Fault Maze :=
  match hs : m.starts with
  | [s] =>
    match hr : (ring s).find? fun p => m.at? p ≠ some .floor with
    | some p => .error (.defectAt .splitBlocked p)
    | none =>
      .ok
        { board := m.board.mapPlaces (splitCell s)
          keys_nodup := by
            refine nodup_keys_mapPlaces ?_ m.keys_nodup
            intro p c hc
            unfold splitCell
            split
            · next hin =>
              -- the block holds the start and open floor, so no key is lost
              have hfree : c.key? = none := by
                by_cases hp : p = s
                · have h1 : m.at? s = some .start :=
                    mem_placesOf.1 (show s ∈ m.starts from hs ▸ List.mem_singleton_self s)
                  rw [hp] at hc
                  rw [at?, hc] at h1
                  rw [Option.some.inj h1]; rfl
                · have h1 := List.find?_eq_none.1 hr p (mem_ring hin hp)
                  simp only [ne_eq, decide_not, Bool.not_eq_eq_eq_not, Bool.not_true,
                    decide_eq_false_iff_not, Decidable.not_not] at h1
                  rw [at?, hc] at h1
                  rw [Option.some.inj h1]; rfl
              rw [hfree]; split <;> rfl
            · rfl }
  | starts => .error (.defectOf (.splitStarts starts.length))

end GatedMaze.Maze
