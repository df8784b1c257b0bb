import GatedMaze.Proofs.Boards
import GatedMaze.Proofs.Landmarks
import GatedMaze.Proofs.Readings
import Mathlib

/-!
# Mazes that are read

A maze that is read from lines has them as its drawing, and what stands at a place is what is drawn
there. So its keys, gates and starts are listed where they are drawn.

* `map_places_of_ok`, `drawing_of_ok`: the cells of a maze that is read.
* `at?_iff_of_ok`: what stands at a place is what is drawn there.
* `mem_gates`, `sorted_gates`: how gates are listed.
* `ofText_spec`: which texts are read, as what, and what is reported about the others.
-/

namespace GatedMaze.Maze

open Coord

variable {m : Maze} {lines : List (List Char)} {p : Coord} {c : Cell} {g : Letter} {ps : List Coord}

/-- **The cells of a maze that is read** are drawn with the characters of its lines, place by place. -/
theorem map_places_of_ok (h : ofLines lines = .ok m) :
    m.board.places.map (fun v => (v.1, v.2.char)) = placed 0 lines := by
  obtain ⟨first, rest, cells, -, huniform, hd, -, -, hcols, hcells⟩ := ofLines_ok h
  have hplaces : m.board.places = cells.zipIdx.map fun v => (m.board.place v.2, v.1) := by
    rw [Board.places, hcells]
  have hlen : cells.length = lines.length * first.length := by
    rw [length_decode hd, length_placed huniform]
  have hfst : (m.board.places.map fun v => (v.1, v.2.char)).map Prod.fst =
      (placed 0 lines).map Prod.fst := by
    rw [map_fst_placed huniform, ← hlen, hplaces, List.map_map, List.map_map,
      List.range_eq_range', ← List.zipIdx_map_snd 0 cells, List.map_map]
    refine List.map_congr_left fun v _ => ?_
    simp only [Function.comp, Board.place, hcols, Nat.zero_add]
  have hsnd : (m.board.places.map fun v => (v.1, v.2.char)).map Prod.snd =
      (placed 0 lines).map Prod.snd := by
    rw [← decode_ok hd, hplaces, List.map_map, List.map_map]
    conv_rhs => rw [← List.zipIdx_map_fst 0 cells, List.map_map]
    rfl
  rw [List.zip_of_prod hfst hsnd]
  exact (List.zip_of_prod rfl rfl).symm

/-- **What stands at a place is what is drawn there.** -/
theorem at?_iff_of_ok (h : ofLines lines = .ok m) :
    m.at? p = some c ↔ charAt? lines p = some c.char := by
  rw [at?, ← Board.mem_places, ← mem_placed, ← map_places_of_ok h, List.mem_map]
  constructor
  · intro hc
    exact ⟨(p, c), hc, rfl⟩
  · rintro ⟨⟨q, d⟩, hd, he⟩
    obtain ⟨rfl, hch⟩ := Prod.mk.injEq .. ▸ he
    exact Cell.char_inj hch ▸ hd

/-- **The drawing of a maze that is read** are its lines. -/
theorem drawing_of_ok (h : ofLines lines = .ok m) : m.drawing = lines.map String.ofList := by
  obtain ⟨first, rest, cells, -, huniform, hd, -, hrows, hcols, hcells⟩ := ofLines_ok h
  have hchars : cells.map Cell.char = lines.flatten := by
    rw [decode_ok hd, map_snd_placed]
  rw [drawing, Board.toRows, hrows, List.map_map]
  refine List.ext_getElem (by simp) fun r h1 h2 => ?_
  have hr : r < lines.length := by simpa using h2
  have hline := take_drop_flatten huniform (List.getElem?_eq_getElem hr)
  have hwidth : (r + 1) * first.length - r * first.length = first.length := by
    rw [Nat.succ_mul, Nat.add_sub_cancel_left]
  simp only [List.getElem_map, List.getElem_range, Function.comp, hcells, hcols]
  rw [← hline, ← hchars, Array.toList_extract, List.extract_eq_take_drop, hwidth]
  simp

/-- The gates of a letter among the cells of a board. -/
theorem map_filter_gate (g : Letter) (cells : List (Coord × Cell)) :
    ((cells.filterMap fun v => v.2.gate?.map fun g => (g, v.1)).filter fun v => v.1 = g).map (·.2) =
      (cells.filter fun v => v.2 = .gate g).map (·.1) := by
  induction cells with
  | nil => rfl
  | cons v cells ih =>
    obtain ⟨p, c⟩ := v
    cases c with
    | gate g' =>
      by_cases hg : g' = g
      · simpa [Cell.gate?, hg] using ih
      · simpa [Cell.gate?, hg] using ih
    | _ => simpa [Cell.gate?] using ih

/-- A letter with its gates, if there are any. -/
def gatesOf? (m : Maze) (g : Letter) : Option (Letter × List Coord) :=
  match m.placesOf (.gate g) with
  | [] => none
  | ps => some (g, ps)

theorem gates_eq (m : Maze) : m.gates = (List.finRange 26).filterMap m.gatesOf? := by
  unfold gates
  simp only [map_filter_gate]
  rfl

theorem gatesOf?_eq_some_iff {g' : Letter} : m.gatesOf? g' = some (g, ps) ↔
    g' = g ∧ ps = m.placesOf (.gate g') ∧ ps ≠ [] := by
  unfold gatesOf?
  cases m.placesOf (.gate g') with
  | nil => simp
  | cons q qs =>
    simp only [Option.some.injEq, Prod.mk.injEq]
    constructor
    · rintro ⟨rfl, rfl⟩
      exact ⟨rfl, rfl, List.cons_ne_nil q qs⟩
    · rintro ⟨rfl, rfl, -⟩
      exact ⟨rfl, rfl⟩

/-- The gates of a letter are listed where they stand. -/
theorem mem_gates : (g, ps) ∈ m.gates ↔ ps = m.placesOf (.gate g) ∧ ps ≠ [] := by
  rw [gates_eq, List.mem_filterMap]
  constructor
  · rintro ⟨g', -, hg⟩
    obtain ⟨rfl, hps⟩ := gatesOf?_eq_some_iff.1 hg
    exact hps
  · intro hps
    exact ⟨g, List.mem_finRange g, gatesOf?_eq_some_iff.2 ⟨rfl, hps⟩⟩

/-- The listed gates ascend by letter. -/
theorem sorted_gates (m : Maze) : m.gates.Pairwise fun a b => a.1 < b.1 := by
  rw [gates_eq]
  refine (List.pairwise_lt_finRange 26).filterMap _ ?_
  rintro g g' hlt ⟨a, ps⟩ ha ⟨b, qs⟩ hb
  obtain ⟨rfl, -⟩ := gatesOf?_eq_some_iff.1 ha
  obtain ⟨rfl, -⟩ := gatesOf?_eq_some_iff.1 hb
  exact hlt

/-- A maze that holds what lines draw: the keys and gates by letter, each with its places, and the
starts. -/
structure Reads (m : Maze) (lines : List (List Char)) : Prop where
  drawing : m.drawing = lines.map String.ofList
  keys : (m.keys.Pairwise fun a b => a.1 < b.1) ∧
    ∀ k p, (k, p) ∈ m.keys ↔ charAt? lines p = some (Cell.key k).char
  gates : (m.gates.Pairwise fun a b => a.1 < b.1) ∧
    ∀ g ps, (g, ps) ∈ m.gates ↔ ps ≠ [] ∧ ps.Pairwise Before ∧
      ∀ p, p ∈ ps ↔ charAt? lines p = some (Cell.gate g).char
  starts : m.starts.Pairwise Before ∧ ∀ p, p ∈ m.starts ↔ charAt? lines p = some '@'

theorem reads_of_ok (h : ofLines lines = .ok m) : m.Reads lines where
  drawing := drawing_of_ok h
  keys := ⟨m.sorted_keys, fun k p => mem_keys.trans (at?_iff_of_ok h)⟩
  gates := by
    have hmem : ∀ g p, p ∈ m.placesOf (.gate g) ↔ charAt? lines p = some (Cell.gate g).char :=
      fun g p => mem_placesOf.trans (at?_iff_of_ok h)
    refine ⟨m.sorted_gates, fun g ps => mem_gates.trans ⟨?_, ?_⟩⟩
    · rintro ⟨rfl, hne⟩
      exact ⟨hne, m.sorted_placesOf _, hmem g⟩
    · rintro ⟨hne, hs, hps⟩
      exact ⟨eq_of_sorted hs (m.sorted_placesOf _) fun p => (hps p).trans (hmem g p).symm, hne⟩
  starts := ⟨m.sorted_placesOf .start, fun p => mem_starts.trans (at?_iff_of_ok h)⟩

/-- **What a text is read as.** Its lines are read when they are those of a maze, and the maze holds what
they draw. Else their first defect is reported. -/
theorem ofText_spec (text : String) :
    ((∃ m, ofText text = .ok m) ↔ Readable (linesOf text)) ∧
      (∀ m, ofText text = .ok m → m.Reads (linesOf text)) ∧
      ∀ e, ofText text = .error e ↔ Defective (linesOf text) e := by
  have hlines : ofText text = ofLines (linesOf text) := by
    rw [ofText, drawnLines_eq]
  rw [hlines]
  refine ⟨⟨?_, fun hr => ?_⟩, fun m => reads_of_ok, fun e => ⟨defective_of_error, fun hd => ?_⟩⟩
  · rintro ⟨m, hm⟩
    exact readable_of_ok hm
  · cases h : ofLines (linesOf text) with
    | ok m => exact ⟨m, rfl⟩
    | error e => exact absurd hr (defective_of_error h).not_readable
  · cases h : ofLines (linesOf text) with
    | ok m => exact absurd (readable_of_ok h) hd.not_readable
    | error e' => rw [(defective_of_error h).unique hd]

example : ofText "\t\n@a\r\r\nbé\n" = .error (.defectAt (.unknownCharacter 'é') ⟨1, 1⟩) := by cbv

end GatedMaze.Maze
