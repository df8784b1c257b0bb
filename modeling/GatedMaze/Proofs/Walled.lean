import GatedMaze.Proofs.Copies
import GatedMaze.Proofs.Reports
import GatedMaze.Proofs.Splits

/-!
# Walls around a maze

A maze stays what it is when rows and columns of walls are put around it: no walk leaves it, so off the
board and in the added walls there is nothing to be found. Only the places in reports are counted from
another corner.

* `at?_walled`: what stands where in a maze with walls around it.
* `SetIn.copy`: such a maze holds a copy of the maze.
* `SetIn.split`, `SetIn.prepare`: it is split and prepared when the maze is, or refused for the same reason.
* `solve_walled`: it is solved like the maze.
-/

namespace GatedMaze

/-- The board with rows and columns of `v` around it. -/
def Board.surround {α : Type} (b : Board α) (v : α) (above below left right : Nat) : Board α :=
  (Board.replicate (above + b.rows + below) (left + b.cols + right) v).mapPlaces
    fun p w => (b.get? (p.shift (-above) (-left))).getD w

theorem Board.get?_surround {α : Type} {b : Board α} {v : α} {above below left right : Nat} {p : Coord} :
    (b.surround v above below left right).get? (p.shift above left) =
      if (Board.replicate (above + b.rows + below) (left + b.cols + right) v).Holds (p.shift above left)
      then some ((b.get? p).getD v) else none := by
  have hback : (p.shift above left).shift (-above) (-left) = p := by
    simp [Coord.shift]
  rw [surround, get?_mapPlaces]
  split
  · next h => rw [get?_replicate h, Option.map_some, hback]
  · next h => rw [get?_of_not_holds h, Option.map_none]

namespace Maze

variable {m m' n : Maze} {dr dc : Int} {p s : Coord} {c : Cell} {cfg : Config} {t : LegTable} {e : Fault}

/-- On a board where each key is found at one place, no key lies twice. -/
theorem nodup_keys_of_unique {b : Board Cell}
    (h : ∀ p q k, b.get? p = some (.key k) → b.get? q = some (.key k) → p = q) :
    (b.cells.toList.filterMap Cell.key?).Nodup := by
  refine List.pairwise_filterMap.2 (List.pairwise_iff_getElem.2 ?_)
  intro i j hi hj hij k hk k' hk' hkk
  have hcell : ∀ x (hx : x < b.cells.toList.length), b.cells.toList[x].key? = some k →
      b.get? (b.place x) = some (.key k) := by
    intro x hx hkey
    have hlt : x < b.cells.size := by simpa using hx
    rw [Board.get?_of_holds (Board.holds_place hlt), Board.slot_place, Array.getElem?_eq_getElem hlt]
    rw [Array.getElem_toList] at hkey
    cases hc : b.cells[x] <;> simp_all [Cell.key?]
  have hplace := h _ _ k (hcell i hi hk) (hcell j hj (hkk ▸ hk'))
  have hslot : i = j := by
    rw [← b.slot_place i, ← b.slot_place j, hplace]
  omega

theorem eq_of_surround_key {above below left right : Nat} {k : Letter}
    (h : (m.board.surround .wall above below left right).get? (p.shift above left) = some (.key k)) :
    m.at? p = some (.key k) := by
  rw [Board.get?_surround] at h
  split at h
  · cases hc : m.at? p with
    | none =>
      unfold at? at hc
      rw [hc] at h
      cases h
    | some c =>
      unfold at? at hc
      rw [hc] at h
      exact h
  · cases h

/-- The maze with rows of walls above and below it and columns of walls on its left and on its right. -/
def walled (m : Maze) (above below left right : Nat) : Maze where
  board := m.board.surround .wall above below left right
  keys_nodup := by
    refine nodup_keys_of_unique fun p q k hp hq => ?_
    obtain ⟨x, rfl⟩ := p.exists_shift above left
    obtain ⟨y, rfl⟩ := q.exists_shift above left
    exact Coord.shift_inj.2 (place_unique (eq_of_surround_key hp) (eq_of_surround_key hq))

/-- `m'` holds `m` with nothing but walls where `m` ends. -/
def SetIn (m m' : Maze) (dr dc : Int) : Prop := ∀ p,
  m'.at? (p.shift dr dc) = m.at? p ∨ m.at? p = none ∧ m'.at? (p.shift dr dc) = some .wall

/-- **A maze stands among the walls around it.** -/
theorem setIn_walled (m : Maze) (above below left right : Nat) :
    m.SetIn (m.walled above below left right) above left := by
  intro p
  show (m.board.surround .wall above below left right).get? _ = _ ∨
    _ ∧ (m.board.surround .wall above below left right).get? _ = _
  rw [Board.get?_surround]
  cases hc : m.at? p with
  | some c =>
    -- what lies on the board lies on the larger one too
    have hb : m.board.Holds p := Board.isSome_get?.1 (Option.isSome_iff_exists.2 ⟨c, hc⟩)
    have hbig : (Board.replicate (above + m.board.rows + below) (left + m.board.cols + right)
        Cell.wall).Holds (p.shift above left) := by
      simp only [Board.Holds, Board.replicate, Coord.shift] at hb ⊢
      omega
    unfold at? at hc
    rw [if_pos hbig, hc]
    exact .inl rfl
  | none =>
    unfold at? at hc
    rw [hc]
    split
    · exact .inr ⟨rfl, rfl⟩
    · exact .inl rfl

/-- What a split puts at a place depends on where the place lies from the start. -/
theorem splitCell_shift : splitCell (s.shift dr dc) (p.shift dr dc) = splitCell s p := by
  funext c
  have hblock : InBlock (s.shift dr dc) (p.shift dr dc) ↔ InBlock s p := by
    unfold InBlock
    simp only [Coord.shift]
    omega
  have hcross : ((p.shift dr dc).row = (s.shift dr dc).row ∨ (p.shift dr dc).col = (s.shift dr dc).col) ↔
      (p.row = s.row ∨ p.col = s.col) := by
    simp only [Coord.shift]
    omega
  unfold splitCell
  simp only [hblock, hcross]

namespace SetIn

variable (h : m.SetIn m' dr dc)
include h

theorem at?_iff (hc : c ≠ .wall) : m'.at? (p.shift dr dc) = some c ↔ m.at? p = some c := by
  rcases h p with he | ⟨hn, hw⟩
  · rw [he]
  · rw [hn, hw]
    simp [hc.symm]

/-- **A maze among walls is a copy**, gates included. -/
theorem copy : m.Copy m' dr dc id where
  isOpen := by
    intro p
    unfold IsOpen
    rcases h p with he | ⟨hn, hw⟩
    · rw [he]
    · simp [hn, hw]
  key := fun p k => h.at?_iff (by simp)
  start := fun p => h.at?_iff (by simp)
  entering := by
    intro p s
    unfold Maze.entering
    rcases h p with he | ⟨hn, hw⟩
    · rw [he]
      rfl
    · rw [hn, hw]
  empty := rfl

theorem legs : m'.legs = outcomeMap id (Fault.moved dr dc) m.legs := by
  have hid : LegTable.reread id = id := funext LegTable.reread_id
  rw [h.copy.legs, hid]

/-- The first neighbour of the start that is not open floor. -/
theorem find?_ring (s : Coord) :
    ((ring (s.shift dr dc)).find? fun p => m'.at? p ≠ some .floor) =
      ((ring s).find? fun p => m.at? p ≠ some .floor).map fun p => p.shift dr dc := by
  have hring : ring (s.shift dr dc) = (ring s).map fun p => p.shift dr dc := by
    simp only [ring, List.map_cons, List.map_nil, Coord.shift, List.cons.injEq, Coord.mk.injEq,
      and_true]
    omega
  have hfloor : ((fun p => decide (m'.at? p ≠ some .floor)) ∘ fun p : Coord => p.shift dr dc) =
      fun p => decide (m.at? p ≠ some .floor) := by
    funext p
    exact decide_eq_decide.2 (not_congr (h.at?_iff (by simp)))
  rw [hring, List.find?_map, hfloor]

/-- **Cut around their starts**, a maze stands among walls again. -/
theorem cut {n' : Maze} (hn : m.Cut s n) (hn' : m'.Cut (s.shift dr dc) n') : n.SetIn n' dr dc := by
  intro p
  rw [hn.at?_eq, hn'.at?_eq, splitCell_shift]
  rcases h p with he | ⟨hnone, hw⟩
  · left
    rw [he]
  · -- where the maze ends there is no part of the block
    have hout : ¬ InBlock s p := by
      intro hin
      obtain ⟨c, hc⟩ := hn.exists_cell hin
      rw [hnone] at hc
      cases hc
    right
    rw [hnone, hw, Option.map_none, Option.map_some, splitCell, if_neg hout]
    exact ⟨rfl, rfl⟩

end SetIn

/-- What becomes of a maze and of the same maze among walls: two mazes of this kind, or one reason for
which both are refused, with the places where they lie. -/
inductive PreparedAlike (dr dc : Int) : Except Fault Maze → Except Fault Maze → Prop
  | maze (n n' : Maze) (set_in : n.SetIn n' dr dc) : PreparedAlike dr dc (.ok n) (.ok n')
  | refused (e : MazeError) : PreparedAlike dr dc (.error (.maze e)) (.error (.maze (e.moved dr dc)))

/-- **Splitting a maze among walls.** -/
theorem SetIn.split (h : m.SetIn m' dr dc) : PreparedAlike dr dc m.split m'.split := by
  have hstarts := h.copy.starts
  have hring := h.find?_ring
  rcases m.split_cases with ⟨s, n, hn, hcut⟩ | ⟨s, p, hs, hp, he⟩ | ⟨hmany, he⟩
  · have hlone : m'.starts = [s.shift dr dc] := by
      rw [hstarts, hcut.lone, List.map_singleton]
    obtain ⟨n', hn', hcut'⟩ : ∃ n', m'.split = .ok n' ∧ m'.Cut (s.shift dr dc) n' := by
      refine exists_cut hlone ?_
      rw [hring, Option.map_eq_none_iff, List.find?_eq_none]
      intro p hp
      simpa using hcut.floor p hp
    rw [hn, hn']
    exact .maze n n' (h.cut hcut hcut')
  · have hlone : m'.starts = [s.shift dr dc] := by
      rw [hstarts, hs, List.map_singleton]
    have he' : m'.split = .error (.defectAt .splitBlocked (p.shift dr dc)) := by
      refine split_of_blocked hlone ?_
      rw [hring, hp, Option.map_some]
    rw [he, he']
    exact .refused (.defectAt .splitBlocked p)
  · have hlength : m'.starts.length = m.starts.length := by
      rw [hstarts, List.length_map]
    have he' := split_of_starts (hlength ▸ hmany : m'.starts.length ≠ 1)
    rw [he, he', hlength]
    exact .refused (.defectOf (.splitStarts m.starts.length))

/-- **Preparing a maze among walls.** -/
theorem SetIn.prepare (hagents : cfg.agents = 1 ∨ cfg.agents = 4) (h : m.SetIn m' dr dc) :
    PreparedAlike dr dc (cfg.prepare m) (cfg.prepare m') := by
  have hsplit : PreparedAlike dr dc (if cfg.split then m.split else .ok m)
      (if cfg.split then m'.split else .ok m') := by
    split
    · exact h.split
    · exact .maze m m' h
  rw [Config.prepare_eq_started hagents, Config.prepare_eq_started hagents]
  revert hsplit
  generalize (if cfg.split then m.split else .ok m) = x
  generalize (if cfg.split then m'.split else .ok m') = x'
  intro hsplit
  cases hsplit with
  | refused e => exact .refused e
  | maze n n' hset =>
    have hlength : n'.starts.length = n.starts.length := by
      rw [hset.copy.starts, List.length_map]
    show PreparedAlike dr dc (cfg.started n) (cfg.started n')
    unfold Config.started
    rw [hlength]
    split
    · exact .refused (.defectOf (.loneStart n.starts.length))
    · exact .maze n n' hset

/-- **Mazes with the same legs between the same landmarks are solved alike**: with the same plan, or with
a report that names no place. -/
theorem solve_alike {n' : Maze} (hprep : cfg.prepare m = .ok n) (hprep' : cfg.prepare m' = .ok n')
    (ht : n.legs = .ok t) (ht' : n'.legs = .ok t) (hkeys : n'.keyIds = n.keyIds)
    (hid : n'.startId = n.startId) : (m'.solve cfg).outcome = (m.solve cfg).outcome ∧
      ((∃ plan, (m.solve cfg).outcome = .ok plan) ∨
        ∃ e : MazeError, (m.solve cfg).outcome = .error (.maze e) ∧ ∀ dr dc, e.moved dr dc = e) := by
  have hlegs := (outcome_notedLegs n).trans ht
  have hlegs' := (outcome_notedLegs n').trans ht'
  constructor
  · rw [outcome_solve_of_prepare hprep, outcome_solve_of_prepare hprep',
      Noted.outcome_bind_of_ok hlegs, Noted.outcome_bind_of_ok hlegs', hkeys, hid]
  rcases crew_spec ht cfg with ⟨crew, hcrew, hs⟩ | ⟨e, hcrew, -⟩
  · have hfits : (Problem.ofKeys t n.keyIds n.startId crew cfg.progress).Fits := fits_of_legs ht hs
    have hspec := Problem.solve_spec hfits false
    rw [← outcome_solve hprep ht hcrew hs] at hspec
    cases hout : (m.solve cfg).outcome with
    | ok plan => exact .inl ⟨plan, rfl⟩
    | error e =>
      rw [hout] at hspec
      cases hspec
      exact .inr ⟨.impasse (.noOrder _), rfl, fun _ _ => rfl⟩
  · obtain ⟨keys, rfl⟩ := unassigned_of_crew ht hcrew
    refine .inr ⟨.unassigned keys cfg.quadrants, ?_, fun _ _ => rfl⟩
    rw [outcome_solve_of_prepare hprep, Noted.outcome_bind_of_ok hlegs,
      Noted.outcome_bind_of_error hcrew]

/-- **A maze is solved alike with walls around it**, by one agent and by four, split or not: the plan is
the same, or the same condition is reported, with the places where they lie now. -/
theorem solve_walled (hagents : cfg.agents = 1 ∨ cfg.agents = 4) (m : Maze)
    (above below left right : Nat) :
    (∃ plan, (m.solve cfg).outcome = .ok plan ∧
      ((m.walled above below left right).solve cfg).outcome = .ok plan) ∨
    ∃ e : MazeError, (m.solve cfg).outcome = .error (.maze e) ∧
      ((m.walled above below left right).solve cfg).outcome = .error (.maze (e.moved above left)) ∧
      (e.moved above left).label = e.label := by
  have hset := m.setIn_walled above below left right
  have hprep := hset.prepare hagents
  generalize hx : cfg.prepare m = x at hprep
  generalize hx' : cfg.prepare (m.walled above below left right) = x' at hprep
  cases hprep with
  | refused e =>
    exact .inr ⟨e, outcome_solve_of_refused hx, outcome_solve_of_refused hx', e.label_moved above left⟩
  | maze n n' hn =>
    have hlegs := hn.legs
    cases ht : n.legs with
    | error e =>
      rw [ht, outcomeMap_error] at hlegs
      obtain ⟨before, p, after, q, -, -, -, he⟩ := n.legs_spec.resolve_left fun ⟨t, ht', _⟩ => by
        rw [ht] at ht'
        cases ht'
      rw [ht] at he
      obtain rfl := Except.error.inj he
      refine .inr ⟨.defectAt (.sharedRegion p q) q, ?_, ?_, MazeError.label_moved ..⟩
      · rw [outcome_solve_of_prepare hx,
          Noted.outcome_bind_of_error ((outcome_notedLegs n).trans ht)]
        rfl
      · rw [outcome_solve_of_prepare hx',
          Noted.outcome_bind_of_error ((outcome_notedLegs n').trans hlegs)]
        rfl
    | ok t =>
      rw [ht, outcomeMap_ok] at hlegs
      obtain ⟨heq, ⟨plan, hplan⟩ | ⟨e, he, hmoved⟩⟩ :=
        solve_alike hx hx' ht hlegs hn.copy.keyIds hn.copy.startId
      · exact .inl ⟨plan, hplan, heq.trans hplan⟩
      · refine .inr ⟨e, he, ?_, e.label_moved above left⟩
        rw [hmoved above left]
        exact heq.trans he

theorem solve_walled_vault :
    (∃ m plan, ofText "aB...b.\n##.@.##\ncA...##" = .ok m ∧
      ((m.walled 1 0 2 1).solve { agents := 4, split := true }).outcome = .ok plan ∧
      plan.cost = 5 ∧ plan.order = [1, 0, 2]) ∧
    ∃ m, ofText "@.@\n#a#" = .ok m ∧ ((m.walled 1 0 2 1).solve { agents := 4 }).outcome =
      .error (.defectAt (.sharedRegion ⟨1, 2⟩ ⟨1, 4⟩) ⟨1, 4⟩) := by
  have h : (do
      let m ← ofText "aB...b.\n##.@.##\ncA...##"
      let plan ← (m.solve { agents := 4, split := true }).outcome
      pure (plan.cost, plan.order)) = .ok (5, [1, 0, 2]) := by cbv
  have h' : (do
      let m ← ofText "@.@\n#a#"
      pure (m.solve { agents := 4 }).outcome) =
      .ok (.error (.defectAt (.sharedRegion ⟨0, 0⟩ ⟨0, 2⟩) ⟨0, 2⟩)) := by cbv
  simp only [bind_ok_iff, pure_eq_ok, Except.ok.injEq, Prod.mk.injEq] at h h'
  obtain ⟨m, hm, plan, hplan, hcost, horder⟩ := h
  obtain ⟨m', hm', herror⟩ := h'
  have hfour : ({ agents := 4, split := true } : Config).agents = 4 := rfl
  have hfour' : ({ agents := 4 } : Config).agents = 4 := rfl
  constructor
  · rcases solve_walled (.inr hfour) m 1 0 2 1 with ⟨plan', h1, h2⟩ | ⟨e, h1, -⟩
    · obtain rfl := Except.ok.inj (hplan.symm.trans h1)
      exact ⟨m, plan, hm, h2, hcost, horder⟩
    · rw [hplan] at h1
      cases h1
  · rcases solve_walled (.inr hfour') m' 1 0 2 1 with ⟨plan', h1, -⟩ | ⟨e, h1, h2, -⟩
    · rw [herror] at h1
      cases h1
    · refine ⟨m', hm', ?_⟩
      obtain rfl : MazeError.defectAt _ _ = e := Fault.maze.inj (Except.error.inj (herror.symm.trans h1))
      exact h2

end Maze

end GatedMaze
