import GatedMaze.Proofs.Drawings
import GatedMaze.Proofs.Splits

/-!
# Drawings that are read again

The drawing of a maze with a start is read as this maze, whatever carriage returns follow its rows and
whatever lines of white space stand around it. Nothing but the board has to be read: where the keys, gates
and starts of a split maze lie follows from it.

* `linesOf_of_shows`: the lines of a text that shows rows are the rows.
* `decode_of_chars`: characters that are drawn with cells are read as them.
* `ofLines_drawing`: the rows of a maze with a start are read as the maze.
* `ofText_shows`: reading a text that shows a maze, also one that was split.
-/

namespace GatedMaze

namespace Text

/-- A line of white space. -/
def IsBlankText (line : String) : Prop := isBlankLine line.toList = true ∧ '\n' ∉ line.toList

instance (line : String) : Decidable (IsBlankText line) :=
  inferInstanceAs (Decidable (isBlankLine line.toList = true ∧ '\n' ∉ line.toList))

/-- A row with carriage returns after it. -/
def returned (row : String) (n : Nat) : String := row ++ String.ofList (List.replicate n '\r')

/-- Whether a text shows rows, one to a line: carriage returns may follow each of them, and lines of
white space may stand above and below. -/
def Shows (text : String) (rows : List String) : Prop :=
  ∃ (above below : List String) (returns : List Nat), (∀ line ∈ above ++ below, IsBlankText line) ∧
    returns.length = rows.length ∧
    text = "\n".intercalate (above ++ List.zipWith returned rows returns ++ below)

section Trim

variable {α : Type} {p : α → Bool} {xs ys zs : List α}

theorem rdropWhile_append_eq (hy : ∀ y ∈ ys, p y = false) (hz : ∀ z ∈ zs, p z = true) :
    (ys ++ zs).rdropWhile p = ys := by
  have hzs : ∀ z ∈ zs.reverse, p z = true := fun z h => hz z (List.mem_reverse.1 h)
  have hys : ys.reverse.dropWhile p = ys.reverse := by
    refine List.dropWhile_eq_self_iff.2 fun hl => ?_
    rw [hy _ (List.mem_reverse.1 (List.getElem_mem hl))]
    exact Bool.false_ne_true
  rw [List.rdropWhile, List.reverse_append, List.dropWhile_append_of_pos hzs, hys,
    List.reverse_reverse]

theorem dropWhile_append_eq (hx : ∀ x ∈ xs, p x = true) (hy : ∀ y ∈ ys, p y = false) (hne : ys ≠ []) :
    (xs ++ (ys ++ zs)).dropWhile p = ys ++ zs := by
  obtain ⟨y, ys, rfl⟩ := List.exists_cons_of_ne_nil hne
  have hhead : ¬ p y = true := by
    rw [hy y List.mem_cons_self]
    exact Bool.false_ne_true
  rw [List.dropWhile_append_of_pos hx, List.cons_append, List.dropWhile_cons_of_neg hhead]

end Trim

/-- Carriage returns at the end of a blank line leave it blank. -/
theorem isBlankLine_rdropWhile {line : List Char} (h : isBlankLine line = true) :
    isBlankLine (line.rdropWhile (· == '\r')) = true := by
  rw [isBlankLine, List.all_eq_true] at h ⊢
  intro c hc
  exact h c ((List.rdropWhile_prefix _ line).subset hc)

/-- A row without white space. -/
def Plain (row : String) : Prop := row.toList ≠ [] ∧ ∀ c ∈ row.toList, isBlank c = false

variable {row text : String} {rows : List String} {c : Char}

theorem Plain.not_mem (h : Plain row) (hc : isBlank c = true) : c ∉ row.toList := by
  intro hmem
  rw [h.2 c hmem] at hc
  cases hc

theorem Plain.isBlankLine_eq (h : Plain row) : isBlankLine row.toList = false := by
  obtain ⟨c, hc⟩ := List.exists_mem_of_ne_nil _ h.1
  rw [isBlankLine, List.all_eq_false]
  exact ⟨c, hc, by simp [h.2 c hc]⟩

theorem Plain.rdropWhile_returned (h : Plain row) (n : Nat) :
    (returned row n).toList.rdropWhile (· == '\r') = row.toList := by
  have hr : isBlank '\r' = true := by decide
  rw [returned, String.toList_append, String.toList_ofList]
  refine rdropWhile_append_eq (fun c hc => ?_) (fun c hc => ?_)
  · have hne : c ≠ '\r' := fun e => h.not_mem hr (e ▸ hc)
    exact beq_eq_false_iff_ne.2 hne
  · rw [List.eq_of_mem_replicate hc]
    rfl

theorem Plain.not_mem_returned (h : Plain row) (n : Nat) : '\n' ∉ (returned row n).toList := by
  have hn : isBlank '\n' = true := by decide
  rw [returned, String.toList_append, String.toList_ofList, List.mem_append, not_or]
  refine ⟨h.not_mem hn, fun hmem => ?_⟩
  have := List.eq_of_mem_replicate hmem
  cases this

/-- The lines that show plain rows, less the carriage returns at their ends, are the rows. -/
theorem map_rdropWhile_returned (h : ∀ row ∈ rows, Plain row) {returns : List Nat}
    (hlen : returns.length = rows.length) :
    (List.zipWith returned rows returns).map (fun line => line.toList.rdropWhile (· == '\r')) =
      rows.map String.toList := by
  refine List.ext_getElem (by simp [hlen]) ?_
  intro i h1 h2
  rw [List.getElem_map, List.getElem_map, List.getElem_zipWith]
  exact (h _ (List.getElem_mem _)).rdropWhile_returned _

end Text

namespace Maze

open Text

variable {m m' : Maze} {text : String} {rows : List String} {cells : List Cell} {drawn : List Letter}
  {xs : List (Coord × Char)}

/-- **The lines of a text that shows rows** are the rows. -/
theorem linesOf_of_shows (h : Shows text rows) (hne : rows ≠ []) (hplain : ∀ row ∈ rows, Plain row) :
    linesOf text = rows.map String.toList := by
  obtain ⟨above, below, returns, hblank, hlen, rfl⟩ := h
  have hlines : ∀ line ∈ (above ++ List.zipWith returned rows returns ++ below).map String.toList,
      '\n' ∉ line := by
    intro line hline
    obtain ⟨text, htext, rfl⟩ := List.mem_map.1 hline
    rcases List.mem_append.1 htext with htext | htext
    · rcases List.mem_append.1 htext with htext | htext
      · exact (hblank text (List.mem_append_left _ htext)).2
      · obtain ⟨i, hi, rfl⟩ := List.getElem_of_mem htext
        rw [List.getElem_zipWith]
        exact (hplain _ (List.getElem_mem _)).not_mem_returned _
    · exact (hblank text (List.mem_append_right _ htext)).2
  have hsome : (above ++ List.zipWith returned rows returns ++ below).map String.toList ≠ [] := by
    have hrows : 0 < rows.length := List.length_pos_iff.2 hne
    refine List.ne_nil_of_length_pos ?_
    simp only [List.length_map, List.length_append, List.length_zipWith, hlen]
    omega
  have htrimmed : ∀ lines : List String, (∀ line ∈ lines, line ∈ above ++ below) →
      ∀ line ∈ lines.map (fun line => line.toList.rdropWhile (· == '\r')),
        isBlankLine line = true := by
    intro lines hsub line hline
    obtain ⟨text, htext, rfl⟩ := List.mem_map.1 hline
    exact isBlankLine_rdropWhile (hblank text (hsub text htext)).1
  have hrows : ∀ line ∈ rows.map String.toList, isBlankLine line = false := by
    intro line hline
    obtain ⟨row, hrow, rfl⟩ := List.mem_map.1 hline
    exact (hplain row hrow).isBlankLine_eq
  have hfeed : "\n".toList = ['\n'] := rfl
  unfold linesOf
  rw [String.toList_intercalate, hfeed, List.splitOn_intercalate _ hlines hsome, List.map_map,
    List.map_append, List.map_append, List.append_assoc]
  simp only [Function.comp_def]
  rw [map_rdropWhile_returned hplain hlen,
    dropWhile_append_eq (htrimmed above fun line hl => List.mem_append_left _ hl) hrows (by simpa using hne),
    rdropWhile_append_eq hrows (htrimmed below fun line hl => List.mem_append_right _ hl)]

/-- **Characters that are drawn with cells are read as them**, when no key is drawn twice. -/
theorem decode_of_chars (hx : xs.map Prod.snd = cells.map Cell.char)
    (hnodup : (cells.filterMap Cell.key?).Nodup)
    (hnew : ∀ k ∈ cells.filterMap Cell.key?, k ∉ drawn) : decode drawn xs = .ok cells := by
  induction cells generalizing xs drawn with
  | nil =>
    obtain rfl := List.map_eq_nil_iff.1 hx
    rfl
  | cons cell cells ih =>
    obtain ⟨⟨p, ch⟩, rest, rfl, hch, hrest⟩ := List.map_eq_cons_iff.1 hx
    have hfirst : ∀ k, cell = .key k → k ∉ drawn := by
      rintro k rfl
      exact hnew k (by simp [Cell.key?])
    rw [decode_of_char hch.symm hfirst, ih hrest]
    · rfl
    · cases hk : cell.key? with
      | none => rwa [List.filterMap_cons_none hk] at hnodup
      | some k =>
        rw [List.filterMap_cons_some hk] at hnodup
        exact hnodup.of_cons
    · intro k hmem hold
      cases hk : cell.key? with
      | none =>
        rw [List.filterMap_cons_none hk] at hnew
        rw [hk] at hold
        exact hnew k hmem (by simpa using hold)
      | some j =>
        rw [List.filterMap_cons_some hk] at hnew hnodup
        rw [hk] at hold
        rcases List.mem_cons.1 hold with rfl | hold
        · exact (List.nodup_cons.1 hnodup).1 hmem
        · exact hnew k (List.mem_cons_of_mem j hmem) hold

/-- Lines of one length that draw cells with a start are those of a maze. -/
theorem exists_ofLines {first : List Char} {rest : List (List Char)}
    (huniform : ∀ l ∈ first :: rest, l.length = first.length)
    (hd : decode [] (placed 0 (first :: rest)) = .ok cells) (hs : Cell.start ∈ cells) :
    ∃ m, ofLines (first :: rest) = .ok m := by
  unfold ofLines
  split
  · next hnil => cases hnil
  · next hcons =>
    obtain ⟨rfl, rfl⟩ := List.cons.inj hcons
    split
    · next hr =>
      rw [raggedLine?_eq_none huniform 0] at hr
      cases hr
    · split
      · next he =>
        rw [hd] at he
        cases he
      · next hd' =>
        rw [hd, Except.ok.injEq] at hd'
        subst hd'
        rw [if_pos hs]
        exact ⟨_, rfl⟩

theorem eq_of_board (hrows : m.board.rows = m'.board.rows) (hcols : m.board.cols = m'.board.cols)
    (hcells : m.board.cells = m'.board.cells) : m = m' := by
  obtain ⟨⟨rows, cols, cells, hsize⟩, hnodup⟩ := m
  obtain ⟨⟨rows', cols', cells', hsize'⟩, hnodup'⟩ := m'
  simp only at hrows hcols hcells
  subst hrows hcols hcells
  rfl

/-- **The rows of a maze with a start are read as the maze.** -/
theorem ofLines_drawing (h : m.starts ≠ []) : ofLines (m.drawing.map String.toList) = .ok m := by
  have hlines : m.drawing.map String.toList = m.board.toRows.map fun row => row.map Cell.char := by
    rw [drawing, List.map_map]
    exact List.map_congr_left fun row _ => String.toList_ofList
  have hflat : (m.drawing.map String.toList).flatten = m.board.cells.toList.map Cell.char := by
    rw [hlines, ← List.map_flatten, Board.flatten_toRows]
  have hlen : ∀ l ∈ m.drawing.map String.toList, l.length = m.board.cols := by
    intro l hl
    rw [hlines] at hl
    obtain ⟨row, hrow, rfl⟩ := List.mem_map.1 hl
    rw [List.length_map, Board.length_of_mem_toRows hrow]
  have hrows : (m.drawing.map String.toList).length = m.board.rows := by
    simp [hlines, Board.toRows]
  have hd : decode [] (placed 0 (m.drawing.map String.toList)) = .ok m.board.cells.toList :=
    decode_of_chars ((map_snd_placed 0 _).trans hflat) m.keys_nodup (by simp)
  obtain ⟨s, hs⟩ := List.exists_mem_of_ne_nil _ h
  have hboard : m.board.get? s = some .start := mem_placesOf.1 hs
  have hstart : Cell.start ∈ m.board.cells.toList := by
    rw [Board.get?_of_holds (Board.isSome_get?.1 (by simp [hboard]))] at hboard
    exact Array.mem_toList_iff.2 (Array.mem_of_getElem? hboard)
  generalize m.drawing.map String.toList = lines at *
  cases lines with
  | nil =>
    have hnil : m.board.cells.toList = [] := by simpa using hflat.symm
    rw [hnil] at hstart
    cases hstart
  | cons first rest =>
    have hfirst := hlen first List.mem_cons_self
    obtain ⟨n, hn⟩ := exists_ofLines (fun l hl => (hlen l hl).trans hfirst.symm) hd hstart
    obtain ⟨first', rest', cells, he, -, hd', -, hr, hc, hcells⟩ := ofLines_ok hn
    obtain ⟨rfl, rfl⟩ := List.cons.inj he
    rw [hd, Except.ok.injEq] at hd'
    rw [hn, Except.ok.injEq]
    refine eq_of_board (hr.trans hrows) (hc.trans hfirst) ?_
    rw [hcells, ← hd']

theorem isBlank_char (c : Cell) : isBlank c.char = false := by
  cases c with
  | key k => revert k; decide
  | gate g => revert g; decide
  | _ => decide

/-- The rows of a maze with a start hold no white space. -/
theorem plain_drawing (h : m.starts ≠ []) : ∀ row ∈ m.drawing, Plain row := by
  intro row hrow
  obtain ⟨cells, hcells, rfl⟩ := List.mem_map.1 hrow
  obtain ⟨s, hs⟩ := List.exists_mem_of_ne_nil _ h
  have hat : m.at? s = some .start := mem_placesOf.1 hs
  have hholds : m.board.Holds s := Board.isSome_get?.1 (Option.isSome_iff_exists.2 ⟨_, hat⟩)
  have hcols : 0 < m.board.cols := by
    have := hholds.2.2
    omega
  have hlen := Board.length_of_mem_toRows hcells
  rw [Plain, String.toList_ofList]
  constructor
  · refine List.ne_nil_of_length_pos ?_
    rw [List.length_map]
    omega
  · intro ch hch
    obtain ⟨c, -, rfl⟩ := List.mem_map.1 hch
    exact isBlank_char c

/-- **A text that shows a maze with a start is read as the maze.** -/
theorem ofText_of_shows (h : m.starts ≠ []) (hs : Shows text m.drawing) : ofText text = .ok m := by
  have hread := ofLines_drawing h
  have hne : m.drawing ≠ [] := by
    intro hnil
    rw [hnil] at hread
    cases hread
  rw [ofText, drawnLines_eq, linesOf_of_shows hs hne (plain_drawing h)]
  exact hread

theorem starts_ne_nil_of_ok (h : ofText text = .ok m) : m.starts ≠ [] := by
  obtain ⟨p, hp⟩ := (readable_of_ok h).start
  have hstart : m.at? p = some .start := (at?_iff_of_ok h).2 hp
  exact List.ne_nil_of_mem (mem_starts.2 hstart)

/-- **What is read is read again** from every text that shows it, and so is its split, which has the same
keys and gates and the corners around the start for starts. -/
theorem ofText_shows (h : ofText text = .ok m) :
    (∀ text', Shows text' m.drawing → ofText text' = .ok m) ∧
      ∀ m', m.split = .ok m' → (∀ text', Shows text' m'.drawing → ofText text' = .ok m') ∧
        m'.keys = m.keys ∧ m'.gates = m.gates ∧
        ∃ s, m.starts = [s] ∧
          m'.starts = [s.shift (-1) (-1), s.shift (-1) 1, s.shift 1 (-1), s.shift 1 1] := by
  refine ⟨fun text' hs => ofText_of_shows (starts_ne_nil_of_ok h) hs, fun m' hm' => ?_⟩
  obtain ⟨s, hcut⟩ := cut_of_split hm'
  have hne : m'.starts ≠ [] := by
    rw [hcut.starts]
    exact List.cons_ne_nil _ _
  exact ⟨fun text' hs => ofText_of_shows hne hs, hcut.keys, hcut.gates, s, hcut.lone, hcut.starts⟩

theorem ofText_shows_vault : ∃ m m', ofText "....a\n..@.A\n....." = .ok m ∧ m.split = .ok m' ∧
    ofText " \r\n\n.@#@a\r\r\n.###A\n.@#@.\r\n\t" = .ok m' := by
  have h : (do
      let m ← ofText "....a\n..@.A\n....."
      let m' ← m.split
      pure m'.drawing) = .ok [".@#@a", ".###A", ".@#@."] := by cbv
  simp only [bind_ok_iff, pure_eq_ok, Except.ok.injEq] at h
  obtain ⟨m, hm, m', hm', hrows⟩ := h
  refine ⟨m, m', hm, hm', ((ofText_shows hm).2 m' hm').1 _ ⟨[" \r", ""], ["\t"], [2, 0, 1], ?_⟩⟩
  rw [hrows]
  exact ⟨by decide, rfl, by decide⟩

end Maze

end GatedMaze
