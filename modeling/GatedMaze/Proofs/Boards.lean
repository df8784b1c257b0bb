import GatedMaze.Proofs.Lines

/-!
# The places of a board, row by row

A board lists its places row by row, and its rows one after the other hold all of its values.

* `sorted_places`: the places are listed row by row.
* `places_mapPlaces`: a change given place by place acts on the listed values.
* `flatten_toRows`, `length_of_mem_toRows`: the rows are as long as the board is wide, and together they
  are the stored values.
* `Maze.sorted_placesOf`: cells of one kind are listed row by row.
-/

namespace GatedMaze

namespace Board

open Coord

variable {α β : Type} {b : Board α} {p : Coord} {v : α}

/-- **The places are listed row by row.** -/
theorem sorted_places (b : Board α) : b.places.Pairwise fun u v => u.1.Before v.1 := by
  have hslots : b.cells.toList.zipIdx.Pairwise fun u v => u.2 < v.2 := by
    have hsnd : (List.range' 0 b.cells.toList.length).Pairwise (· < ·) := List.pairwise_lt_range'
    rw [← List.zipIdx_map_snd] at hsnd
    exact List.pairwise_map.1 hsnd
  refine List.pairwise_map.2 (hslots.imp ?_)
  intro u v huv
  -- a later slot lies in a later row, or further along in the same row
  have hle : u.2 / b.cols ≤ v.2 / b.cols := Nat.div_le_div_right (Nat.le_of_lt huv)
  have hu := Nat.div_add_mod u.2 b.cols
  have hv := Nat.div_add_mod v.2 b.cols
  rcases Nat.eq_or_lt_of_le hle with heq | hlt
  · rw [heq] at hu
    have hcol : u.2 % b.cols < v.2 % b.cols := by omega
    exact .inr ⟨congrArg Int.ofNat heq, Int.ofNat_lt.2 hcol⟩
  · exact .inl (Int.ofNat_lt.2 hlt)

/-- **A change given place by place acts on the listed values.** -/
theorem places_mapPlaces (f : Coord → α → β) :
    (b.mapPlaces f).places = b.places.map fun v => (v.1, f v.1 v.2) := by
  have hcells : (b.mapPlaces f).cells.toList.zipIdx =
      b.cells.toList.zipIdx.map fun v => (f (b.place v.2) v.1, v.2) := by
    refine List.ext_getElem (by simp [mapPlaces]) ?_
    intro i h1 h2
    simp [mapPlaces]
  unfold places
  rw [hcells, List.map_map, List.map_map]
  rfl

theorem get?_replicate {rows cols : Nat} (h : (replicate rows cols v).Holds p) :
    (replicate rows cols v).get? p = some v := by
  have hlt := slot_lt h
  rw [get?_of_holds h, Array.getElem?_eq_getElem hlt]
  simp [replicate]

/-- Every row is as long as the board is wide. -/
theorem length_of_mem_toRows {row : List α} (h : row ∈ b.toRows) : row.length = b.cols := by
  obtain ⟨r, hr, rfl⟩ := List.mem_map.1 h
  have hle : (r + 1) * b.cols ≤ b.rows * b.cols :=
    Nat.mul_le_mul_right _ (List.mem_range.1 hr)
  have hsize := b.size_cells
  rw [Nat.succ_mul] at hle
  rw [Array.length_toList, Array.size_extract, Nat.succ_mul]
  omega

/-- The first rows hold the first stored values. -/
theorem flatten_rows (b : Board α) {n : Nat} (hn : n ≤ b.rows) :
    ((List.range n).map fun r =>
      (b.cells.extract (r * b.cols) ((r + 1) * b.cols)).toList).flatten =
      b.cells.toList.take (n * b.cols) := by
  induction n with
  | zero => simp
  | succ n ih =>
    have hwidth : (n + 1) * b.cols - n * b.cols = b.cols := by
      rw [Nat.succ_mul, Nat.add_sub_cancel_left]
    rw [List.range_succ, List.map_append, List.flatten_append, ih (by omega), List.map_singleton,
      List.flatten_singleton, Array.toList_extract, List.extract_eq_take_drop, hwidth, Nat.succ_mul,
      List.take_add]

/-- **The rows one after the other are the stored values.** -/
theorem flatten_toRows (b : Board α) : b.toRows.flatten = b.cells.toList := by
  rw [toRows, flatten_rows b le_rfl, ← b.size_cells, ← Array.length_toList, List.take_length]

end Board

/-- Cells of one kind are listed row by row. -/
theorem Maze.sorted_placesOf (m : Maze) (c : Cell) : (m.placesOf c).Pairwise Coord.Before :=
  List.pairwise_map.2 (m.board.sorted_places.filter _)

end GatedMaze
