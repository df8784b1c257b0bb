import GatedMaze.Maze.Reader
import Mathlib.Data.List.DropRight

/-!
# Lines and their characters

A text is cut at its line feeds, and the lines between its blank ends are a drawing. A character of a
drawing has a place, its row and its column.

* `drawnLines_eq`: which lines of a text are a drawing.
* `mem_placed`, `sorted_placed`: all characters are listed with their places, row by row.
* `map_fst_placed`, `map_snd_placed`: the places are those of a board, and the characters are those of
  the lines one after the other.
* `raggedLine?_eq_some`: which line is reported for its length.
-/

namespace GatedMaze

namespace Text

theorem splitLines_eq_splitOn (cs : List Char) : splitLines cs = cs.splitOn '\n' := by
  induction cs with
  | nil => rfl
  | cons c cs ih =>
    rw [List.splitOn_eq_splitOnP] at ih ⊢
    rw [List.splitOnP_cons_eq_if_modifyHead, splitLines, ← ih]
    by_cases hc : c = '\n'
    · simp [hc]
    · have hbeq : (c == '\n') = false := beq_eq_false_iff_ne.2 hc
      rw [if_neg hc, hbeq, if_neg Bool.false_ne_true]
      cases hs : splitLines cs with
      | nil => exact absurd hs (splitLines_ne_nil cs)
      | cons line rest => rfl

end Text

namespace Coord

/-- Whether one place comes before another one, row by row. -/
def Before (p q : Coord) : Prop := p.row < q.row ∨ p.row = q.row ∧ p.col < q.col

variable {p q : Coord}

theorem Before.irrefl (p : Coord) : ¬ p.Before p := by
  unfold Before
  omega

theorem Before.asymm (h : p.Before q) : ¬ q.Before p := by
  unfold Before at *
  omega

theorem Before.trans {r : Coord} (h : p.Before q) (h' : q.Before r) : p.Before r := by
  unfold Before at *
  omega

theorem before_trichotomy (p q : Coord) : p.Before q ∨ p = q ∨ q.Before p := by
  obtain ⟨r, c⟩ := p
  obtain ⟨r', c'⟩ := q
  simp only [Before, Coord.mk.injEq]
  omega

/-- Places in order are listed in one way only. -/
theorem eq_of_sorted {ps qs : List Coord} (hp : ps.Pairwise Before) (hq : qs.Pairwise Before)
    (h : ∀ p, p ∈ ps ↔ p ∈ qs) : ps = qs := by
  have hne : ∀ {a b : Coord}, a.Before b → a ≠ b := by
    rintro a b hab rfl
    exact Before.irrefl a hab
  have hperm := (List.perm_ext_iff_of_nodup (hp.imp hne) (hq.imp hne)).2 h
  exact hperm.eq_of_pairwise (fun a b _ _ hab hba => absurd hba hab.asymm) hp hq

end Coord

namespace Maze

open Coord

/-- The lines of a text without carriage returns at their ends, less the blank ones at both ends. -/
def linesOf (text : String) : List (List Char) :=
  (((text.toList.splitOn '\n').map fun line => line.rdropWhile (· == '\r')).dropWhile
    Text.isBlankLine).rdropWhile Text.isBlankLine

/-- **The lines that draw a maze** are those between the blank ends of a text. -/
theorem drawnLines_eq (text : String) : drawnLines text = linesOf text := by
  unfold drawnLines linesOf
  rw [Text.splitLines_eq_splitOn]
  rfl

/-- The character at a place of a drawing. -/
def charAt? (lines : List (List Char)) (p : Coord) : Option Char :=
  if 0 ≤ p.row ∧ 0 ≤ p.col then lines[p.row.toNat]?.bind fun row => row[p.col.toNat]? else none

variable {lines : List (List Char)} {line : List Char} {p q : Coord} {c : Char} {r n width : Nat}

theorem charAt?_eq_some_iff : charAt? lines p = some c ↔ ∃ i j : Nat, p = ⟨i, j⟩ ∧
    ∃ row, lines[i]? = some row ∧ row[j]? = some c := by
  unfold charAt?
  constructor
  · intro h
    split at h
    · next h0 =>
      obtain ⟨line, hl, hc⟩ := Option.bind_eq_some_iff.1 h
      refine ⟨p.row.toNat, p.col.toNat, ?_, line, hl, hc⟩
      rw [Int.toNat_of_nonneg h0.1, Int.toNat_of_nonneg h0.2]
    · cases h
  · rintro ⟨i, j, rfl, line, hl, hc⟩
    rw [if_pos ⟨Int.natCast_nonneg i, Int.natCast_nonneg j⟩, Int.toNat_natCast, Int.toNat_natCast,
      hl]
    exact hc

theorem placedLine_eq (r n : Nat) (line : List Char) :
    placedLine r n line = (line.zipIdx n).map fun v => (⟨r, v.2⟩, v.1) := by
  induction line generalizing n with
  | nil => rfl
  | cons ch line ih => rw [placedLine, ih, List.zipIdx_cons, List.map_cons]

theorem mem_placedLine {row : List Char} :
    (p, c) ∈ placedLine r 0 row ↔ ∃ j : Nat, p = ⟨r, j⟩ ∧ row[j]? = some c := by
  rw [placedLine_eq, List.mem_map]
  constructor
  · rintro ⟨⟨ch, j⟩, hv, he⟩
    obtain ⟨rfl, rfl⟩ := Prod.mk.injEq .. ▸ he
    exact ⟨j, rfl, List.mk_mem_zipIdx_iff_getElem?.1 hv⟩
  · rintro ⟨j, rfl, hj⟩
    exact ⟨(c, j), List.mk_mem_zipIdx_iff_getElem?.2 hj, rfl⟩

theorem mem_placed_from : (p, c) ∈ placed r lines ↔ ∃ i j : Nat, p = ⟨(r + i : Nat), j⟩ ∧
    ∃ row, lines[i]? = some row ∧ row[j]? = some c := by
  induction lines generalizing r with
  | nil => simp [placed]
  | cons first lines ih =>
    rw [placed, List.mem_append, mem_placedLine, ih]
    constructor
    · rintro (⟨j, rfl, hc⟩ | ⟨i, j, rfl, line, hl, hc⟩)
      · exact ⟨0, j, rfl, first, rfl, hc⟩
      · refine ⟨i + 1, j, ?_, line, hl, hc⟩
        have hi : r + 1 + i = r + (i + 1) := by omega
        rw [hi]
    · rintro ⟨i, j, rfl, line, hl, hc⟩
      cases i with
      | zero =>
        obtain rfl : first = line := Option.some.inj hl
        exact .inl ⟨j, rfl, hc⟩
      | succ i =>
        have hi : r + (i + 1) = r + 1 + i := by omega
        exact .inr ⟨i, j, by rw [hi], line, hl, hc⟩

/-- **All characters of a drawing are listed**, each with its place. -/
theorem mem_placed : (p, c) ∈ placed 0 lines ↔ charAt? lines p = some c := by
  rw [mem_placed_from, charAt?_eq_some_iff]
  simp only [Nat.zero_add]

theorem sorted_placedLine (r n : Nat) (line : List Char) :
    (placedLine r n line).Pairwise fun a b => a.1.Before b.1 := by
  induction line generalizing n with
  | nil => exact .nil
  | cons ch line ih =>
    refine List.pairwise_cons.2 ⟨fun v hv => ?_, ih (n + 1)⟩
    rw [placedLine_eq, List.mem_map] at hv
    obtain ⟨⟨c, j⟩, hj, rfl⟩ := hv
    have hle : n + 1 ≤ j := List.le_snd_of_mem_zipIdx hj
    exact .inr ⟨rfl, Int.ofNat_lt.2 hle⟩

/-- **The characters are listed row by row.** -/
theorem sorted_placed (r : Nat) (lines : List (List Char)) :
    (placed r lines).Pairwise fun a b => a.1.Before b.1 := by
  induction lines generalizing r with
  | nil => exact .nil
  | cons line lines ih =>
    refine List.pairwise_append.2 ⟨sorted_placedLine r 0 line, ih (r + 1), ?_⟩
    rintro ⟨p, c⟩ hp ⟨q, d⟩ hq
    obtain ⟨j, rfl, -⟩ := mem_placedLine.1 hp
    obtain ⟨i, k, rfl, -⟩ := mem_placed_from.1 hq
    simp only [Before]
    omega

theorem map_snd_placed (r : Nat) (lines : List (List Char)) :
    (placed r lines).map Prod.snd = lines.flatten := by
  induction lines generalizing r with
  | nil => rfl
  | cons line lines ih =>
    rw [placed, List.map_append, ih, placedLine_eq, List.map_map, List.flatten_cons]
    exact congrArg (· ++ _) (List.zipIdx_map_fst 0 line)

/-- The places of lines of one length are those of a board. -/
theorem map_fst_placed (h : ∀ l ∈ lines, l.length = width) (r : Nat) :
    (placed r lines).map Prod.fst = (List.range (lines.length * width)).map fun (i : Nat) =>
      (⟨(r + i / width : Nat), (i % width : Nat)⟩ : Coord) := by
  induction lines generalizing r with
  | nil => simp [placed]
  | cons line lines ih =>
    rw [List.forall_mem_cons] at h
    have hlen : (line :: lines).length * width = width + lines.length * width := by
      rw [List.length_cons, Nat.succ_mul, Nat.add_comm]
    have hsnd : (line.zipIdx 0).map Prod.snd = List.range width := by
      rw [List.zipIdx_map_snd, h.1, List.range_eq_range']
    rw [placed, List.map_append, ih h.2, hlen, List.range_add, List.map_append, List.map_map,
      placedLine_eq, List.map_map, ← hsnd, List.map_map]
    congr 1
    · refine List.map_congr_left fun v hv => ?_
      have hlt : v.2 < width := h.1 ▸ List.snd_lt_of_mem_zipIdx hv
      simp only [Function.comp, Nat.div_eq_of_lt hlt, Nat.mod_eq_of_lt hlt, Nat.add_zero]
    · refine List.map_congr_left fun i hi => ?_
      have hpos : 0 < width := by
        rcases Nat.eq_zero_or_pos width with h0 | h0
        · rw [h0] at hi
          simp at hi
        · exact h0
      have hdiv : (width + i) / width = i / width + 1 := by
        rw [Nat.add_comm, Nat.add_div_right _ hpos]
      simp only [Function.comp, hdiv, Nat.add_mod_left]
      have hr : r + 1 + i / width = r + (i / width + 1) := by omega
      rw [hr]

/-- A line is the part of all lines, one after the other, that begins where it begins. -/
theorem take_drop_flatten (h : ∀ l ∈ lines, l.length = width) (hl : lines[n]? = some line) :
    (lines.flatten.drop (n * width)).take width = line := by
  induction lines generalizing n with
  | nil => cases hl
  | cons first lines ih =>
    rw [List.forall_mem_cons] at h
    rw [List.flatten_cons]
    cases n with
    | zero =>
      obtain rfl : first = line := Option.some.inj hl
      rw [Nat.zero_mul, List.drop_zero, List.take_append_of_le_length (by omega), ← h.1,
        List.take_length]
    | succ n =>
      have hlen : (n + 1) * width = first.length + n * width := by
        rw [Nat.succ_mul, h.1, Nat.add_comm]
      rw [hlen, ← List.drop_drop, List.drop_left]
      exact ih h.2 hl

theorem raggedLine?_eq_none (h : ∀ l ∈ lines, l.length = width) (r : Nat) :
    raggedLine? width r lines = none := by
  induction lines generalizing r with
  | nil => rfl
  | cons line lines ih =>
    rw [List.forall_mem_cons] at h
    rw [raggedLine?, if_pos h.1]
    exact ih h.2 (r + 1)

/-- **The first line of another length is reported**, with its number and its length. -/
theorem raggedLine?_eq_some {found : Nat} (h : raggedLine? width r lines = some (n, found)) :
    ∃ i line, n = r + i ∧ lines[i]? = some line ∧ line.length = found ∧ found ≠ width ∧
      ∀ l ∈ lines.take i, l.length = width := by
  induction lines generalizing r with
  | nil => cases h
  | cons line lines ih =>
    rw [raggedLine?] at h
    split at h
    · next hw =>
      obtain ⟨i, l, rfl, hl, hf, hne, hb⟩ := ih h
      refine ⟨i + 1, l, by omega, hl, hf, hne, ?_⟩
      rw [List.take_succ_cons]
      exact List.forall_mem_cons.2 ⟨hw, hb⟩
    · next hw =>
      obtain ⟨rfl, rfl⟩ := Prod.mk.injEq .. ▸ Option.some.inj h
      exact ⟨0, line, rfl, rfl, rfl, hw, by simp⟩

end Maze

end GatedMaze
