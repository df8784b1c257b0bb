import GatedMaze.Maze.Split
import GatedMaze.Proofs.Drawings

/-!
# What a split changes

A split changes the block of nine cells around the only start and nothing else. The block is open floor
apart from the start, so no key and no gate is lost.

* `split_cases`, `exists_cut`: when a maze is split, and what is reported about the others.
* `find?_ring_eq_some_iff`: the reported neighbour is the first one, row by row, without open floor.
* `Cut.keys`, `Cut.gates`, `Cut.starts`: the keys and gates stay, and the corners of the block are the
  starts, row by row.
* `split_spec`: which mazes are split, into what, and what is reported about the others.
-/

namespace GatedMaze.Maze

open Coord

/-- A maze that is cut around its only start, which stands on open floor. -/
structure Cut (m : Maze) (s : Coord) (m' : Maze) : Prop where
  lone : m.starts = [s]
  floor : ∀ p ∈ ring s, m.at? p = some .floor
  board : m'.board = m.board.mapPlaces (splitCell s)

/-- The corners of the block around a place, row by row. -/
def corners (s : Coord) : List Coord :=
  [s.shift (-1) (-1), s.shift (-1) 1, s.shift 1 (-1), s.shift 1 1]

variable {m m' : Maze} {s p : Coord} {c : Cell}

/-- **When a maze is split**: when it has one start and open floor around it. Otherwise the number of
starts is reported, or the first neighbour of the start that is not open floor. -/
theorem split_cases (m : Maze) : (∃ s m', m.split = .ok m' ∧ m.Cut s m') ∨
    (∃ s p, m.starts = [s] ∧ (ring s).find? (fun p => m.at? p ≠ some .floor) = some p ∧
      m.split = .error (.defectAt .splitBlocked p)) ∨
    m.starts.length ≠ 1 ∧ m.split = .error (.defectOf (.splitStarts m.starts.length)) := by
  unfold split
  split
  · next s hs =>
    split
    · next p hp => exact .inr (.inl ⟨s, p, hs, hp, rfl⟩)
    · next hfloor =>
      have hall : ∀ p ∈ ring s, m.at? p = some .floor := by
        intro p hp
        simpa using List.find?_eq_none.1 hfloor p hp
      exact .inl ⟨s, _, rfl, hs, hall, rfl⟩
  · next hmany =>
    refine .inr (.inr ⟨fun hone => ?_, rfl⟩)
    obtain ⟨s, hs⟩ := List.length_eq_one_iff.1 hone
    exact hmany s hs

theorem exists_cut (hs : m.starts = [s])
    (hfloor : ((ring s).find? fun p => m.at? p ≠ some .floor) = none) :
    ∃ m', m.split = .ok m' ∧ m.Cut s m' := by
  rcases m.split_cases with ⟨x, m', hm', hcut⟩ | ⟨x, p, hx, hp, -⟩ | ⟨hmany, -⟩
  · obtain rfl : x = s := List.singleton_inj.1 (hcut.lone.symm.trans hs)
    exact ⟨m', hm', hcut⟩
  · obtain rfl : x = s := List.singleton_inj.1 (hx.symm.trans hs)
    rw [hfloor] at hp
    cases hp
  · exact absurd (congrArg List.length hs) hmany

theorem split_of_blocked (hs : m.starts = [s])
    (hp : ((ring s).find? fun p => m.at? p ≠ some .floor) = some p) :
    m.split = .error (.defectAt .splitBlocked p) := by
  rcases m.split_cases with ⟨x, m', -, hcut⟩ | ⟨x, q, hx, hq, he⟩ | ⟨hmany, -⟩
  · obtain rfl : x = s := List.singleton_inj.1 (hcut.lone.symm.trans hs)
    have hfloor := hcut.floor p (List.mem_of_find?_eq_some hp)
    have hno := List.find?_some hp
    simp [hfloor] at hno
  · obtain rfl : x = s := List.singleton_inj.1 (hx.symm.trans hs)
    rw [hp, Option.some.injEq] at hq
    rw [he, hq]
  · exact absurd (congrArg List.length hs) hmany

theorem split_of_starts (hmany : m.starts.length ≠ 1) :
    m.split = .error (.defectOf (.splitStarts m.starts.length)) := by
  rcases m.split_cases with ⟨x, m', -, hcut⟩ | ⟨x, q, hx, -, -⟩ | ⟨-, he⟩
  · exact absurd (congrArg List.length hcut.lone) hmany
  · exact absurd (congrArg List.length hx) hmany
  · exact he

theorem cut_of_split (h : m.split = .ok m') : ∃ s, m.Cut s m' := by
  rcases m.split_cases with ⟨s, n, hn, hcut⟩ | ⟨s, p, -, -, he⟩ | ⟨-, he⟩
  · rw [h, Except.ok.injEq] at hn
    exact ⟨s, hn ▸ hcut⟩
  · rw [h] at he
    cases he
  · rw [h] at he
    cases he

namespace Cut

variable (h : m.Cut s m')
include h

/-- What stands at a place after the split. -/
theorem at?_eq (p : Coord) : m'.at? p = (m.at? p).map (splitCell s p) := by
  unfold at?
  rw [h.board, Board.get?_mapPlaces]

theorem start_iff : m.at? p = some .start ↔ p = s := by
  rw [← mem_placesOf]
  show p ∈ m.starts ↔ p = s
  rw [h.lone, List.mem_singleton]

/-- The block lies inside the maze. -/
theorem exists_cell (hin : InBlock s p) : ∃ c, m.at? p = some c := by
  by_cases hp : p = s
  · exact ⟨.start, h.start_iff.2 hp⟩
  · exact ⟨.floor, h.floor p (mem_ring hin hp)⟩

/-- In the block there is the start and open floor. -/
theorem eq_start_or_floor (hin : InBlock s p) (hc : m.at? p = some c) : c = .start ∨ c = .floor := by
  by_cases hp : p = s
  · have hstart := h.start_iff.2 hp
    rw [hc] at hstart
    exact .inl (Option.some.inj hstart)
  · have hfloor := h.floor p (mem_ring hin hp)
    rw [hc] at hfloor
    exact .inr (Option.some.inj hfloor)

/-- A property of keys and gates only is that of the cell before the split. -/
theorem splitCell_congr {β : Type} {f : Cell → Option β} (hwall : f .wall = none)
    (hfloor : f .floor = none) (hstart : f .start = none) (hc : m.at? p = some c) :
    f (splitCell s p c) = f c := by
  unfold splitCell
  split
  · next hin =>
    have hnone : f c = none := by
      rcases h.eq_start_or_floor hin hc with rfl | rfl
      · exact hstart
      · exact hfloor
    rw [hnone]
    split
    · exact hwall
    · exact hstart
  · rfl

/-- The listed cells with a property of keys and gates are those before the split. -/
theorem filterMap_places {β : Type} {f : Cell → Option β} (hwall : f .wall = none)
    (hfloor : f .floor = none) (hstart : f .start = none) :
    (m'.board.places.filterMap fun v => (f v.2).map fun b => (b, v.1)) =
      m.board.places.filterMap fun v => (f v.2).map fun b => (b, v.1) := by
  rw [h.board, Board.places_mapPlaces, List.filterMap_map]
  refine List.filterMap_congr ?_
  rintro ⟨p, c⟩ hv
  have hc : m.at? p = some c := Board.mem_places.1 hv
  show (f (splitCell s p c)).map _ = (f c).map _
  rw [h.splitCell_congr hwall hfloor hstart hc]

/-- **The keys stay.** -/
theorem keys : m'.keys = m.keys := by
  unfold Maze.keys
  rw [h.filterMap_places rfl rfl rfl]

/-- **The gates stay.** -/
theorem gates : m'.gates = m.gates := by
  unfold Maze.gates
  rw [h.filterMap_places rfl rfl rfl]

/-- The starts after the split are the corners of the block. -/
theorem at?_eq_start_iff : m'.at? p = some .start ↔ p ∈ corners s := by
  rw [h.at?_eq]
  obtain ⟨r, k⟩ := s
  obtain ⟨i, j⟩ := p
  constructor
  · intro hp
    obtain ⟨c, hc, hcell⟩ := Option.map_eq_some_iff.1 hp
    unfold splitCell at hcell
    split at hcell
    · next hin =>
      split at hcell
      · cases hcell
      · next hoff =>
        unfold InBlock at hin
        simp only [corners, Coord.shift, List.mem_cons, Coord.mk.injEq, List.not_mem_nil, or_false]
        simp only at hin hoff
        omega
    · next hout =>
      rw [hcell] at hc
      have hps := h.start_iff.1 hc
      refine absurd ?_ hout
      rw [hps]
      unfold InBlock
      omega
  · intro hp
    have hring : (⟨i, j⟩ : Coord) ∈ ring ⟨r, k⟩ := by
      simp only [corners, ring, List.mem_cons, List.not_mem_nil, or_false] at hp ⊢
      tauto
    rw [h.floor _ hring]
    simp only [corners, Coord.shift, List.mem_cons, Coord.mk.injEq, List.not_mem_nil, or_false] at hp
    have hin : InBlock ⟨r, k⟩ ⟨i, j⟩ := by
      unfold InBlock
      simp only
      omega
    have hoff : ¬ (i = r ∨ j = k) := by omega
    rw [Option.map_some, splitCell, if_pos hin, if_neg hoff]

/-- **The corners of the block are the starts**, row by row. -/
theorem starts : m'.starts = corners s := by
  refine eq_of_sorted (m'.sorted_placesOf .start) ?_ fun p => mem_placesOf.trans h.at?_eq_start_iff
  simp only [corners, List.pairwise_cons, List.mem_cons, List.not_mem_nil, or_false, Before,
    Coord.shift, forall_eq_or_imp, forall_eq, false_implies, implies_true, List.Pairwise.nil, and_true,
    true_and]
  omega

/-- What stands in the block after the split. -/
theorem at?_of_inBlock (hin : InBlock s p) :
    m'.at? p = some (if p.row = s.row ∨ p.col = s.col then .wall else .start) := by
  obtain ⟨c, hc⟩ := h.exists_cell hin
  rw [h.at?_eq, hc, Option.map_some, splitCell, if_pos hin]

theorem at?_of_not_inBlock (hout : ¬ InBlock s p) : m'.at? p = m.at? p := by
  rw [h.at?_eq]
  unfold splitCell
  simp only [if_neg hout, Option.map_id']

end Cut

theorem mem_ring_iff : p ∈ ring s ↔ InBlock s p ∧ p ≠ s := by
  refine ⟨fun hp => ?_, fun hp => mem_ring hp.1 hp.2⟩
  obtain ⟨r, k⟩ := s
  obtain ⟨i, j⟩ := p
  simp only [ring, Coord.shift, List.mem_cons, List.not_mem_nil, Coord.mk.injEq, or_false] at hp
  unfold InBlock
  simp only [ne_eq, Coord.mk.injEq]
  omega

/-- The neighbours are listed row by row. -/
theorem sorted_ring (s : Coord) : (ring s).Pairwise Before := by
  simp only [ring, List.pairwise_cons, List.mem_cons, List.not_mem_nil, or_false, Before,
    Coord.shift, forall_eq_or_imp, forall_eq, false_implies, implies_true, List.Pairwise.nil, and_true,
    true_and]
  omega

/-- The first neighbour of a place, row by row, where there is no open floor. -/
structure FirstBlocked (m : Maze) (s p : Coord) : Prop where
  near : InBlock s p
  ne : p ≠ s
  blocked : m.at? p ≠ some .floor
  first : ∀ q, InBlock s q → q ≠ s → q.Before p → m.at? q = some .floor

/-- **The reported neighbour is the first one without open floor.** -/
theorem find?_ring_eq_some_iff :
    ((ring s).find? fun p => m.at? p ≠ some .floor) = some p ↔ m.FirstBlocked s p := by
  have hfirst : ∀ {p}, ((ring s).find? fun p => m.at? p ≠ some .floor) = some p →
      m.FirstBlocked s p := by
    intro p hp
    obtain ⟨hblocked, before, after, hring, hfloor⟩ := List.find?_eq_some_iff_append.1 hp
    have hsorted := hring ▸ sorted_ring s
    obtain ⟨hin, hne⟩ := mem_ring_iff.1 (List.mem_of_find?_eq_some hp)
    refine ⟨hin, hne, of_decide_eq_true hblocked, fun q hq hqs hqp => ?_⟩
    -- what comes before it in order comes before it in the list
    have hmem : q ∈ before ++ p :: after := hring ▸ mem_ring hq hqs
    rcases List.mem_append.1 hmem with hb | ha
    · simpa using hfloor q hb
    · rcases List.mem_cons.1 ha with rfl | ha
      · exact absurd hqp (Before.irrefl q)
      · have hpq := (List.pairwise_cons.1 (List.pairwise_append.1 hsorted).2.1).1 q ha
        exact absurd hqp hpq.asymm
  refine ⟨hfirst, fun hp => ?_⟩
  cases hq : (ring s).find? fun p => m.at? p ≠ some .floor with
  | none =>
    have hfloor := List.find?_eq_none.1 hq p (mem_ring hp.near hp.ne)
    exact absurd hp.blocked (by simpa using hfloor)
  | some q =>
    have hq := hfirst hq
    rcases before_trichotomy q p with hlt | rfl | hlt
    · exact absurd (hp.first q hq.near hq.ne hlt) hq.blocked
    · rfl
    · exact absurd (hq.first p hp.near hp.ne hlt) hp.blocked

/-- What a split around `s` makes of a maze: the block is drawn anew, nothing else changes, and what stands
where agrees with the keys and gates there were before and the four new starts. -/
structure Quartered (m : Maze) (s : Coord) (m' : Maze) : Prop where
  rows : m'.board.rows = m.board.rows
  cols : m'.board.cols = m.board.cols
  outside : ∀ p, ¬ InBlock s p → m'.at? p = m.at? p
  block : ([-1, 0, 1].map fun dr => [-1, 0, 1].map fun dc => (m'.at? (s.shift dr dc)).map Cell.char) =
    ["@#@", "###", "@#@"].map fun row => row.toList.map some
  keys : m'.keys = m.keys
  gates : m'.gates = m.gates
  starts : m'.starts = corners s
  start_iff : ∀ p, m'.at? p = some .start ↔ p ∈ corners s
  key_iff : ∀ p k, m'.at? p = some (.key k) ↔ (k, p) ∈ m.keys
  gate_iff : ∀ p g, m'.at? p = some (.gate g) ↔ ∃ ps, (g, ps) ∈ m.gates ∧ p ∈ ps

theorem Cut.quartered (h : m.Cut s m') : m.Quartered s m' where
  rows := by rw [h.board]; rfl
  cols := by rw [h.board]; rfl
  outside := fun p => h.at?_of_not_inBlock
  block := by
    have hat : ∀ dr dc : Int, -1 ≤ dr → dr ≤ 1 → -1 ≤ dc → dc ≤ 1 →
        m'.at? (s.shift dr dc) = some (if dr = 0 ∨ dc = 0 then .wall else .start) := by
      intro dr dc h1 h2 h3 h4
      have hin : InBlock s (s.shift dr dc) := by
        simp only [InBlock, Coord.shift]
        omega
      have hcross : (s.shift dr dc).row = s.row ∨ (s.shift dr dc).col = s.col ↔ dr = 0 ∨ dc = 0 := by
        simp only [Coord.shift]
        omega
      rw [h.at?_of_inBlock hin]
      simp only [hcross]
    simp only [List.map_cons, List.map_nil]
    rw [hat, hat, hat, hat, hat, hat, hat, hat, hat] <;> decide
  keys := h.keys
  gates := h.gates
  starts := h.starts
  start_iff := fun p => h.at?_eq_start_iff
  key_iff := fun p k => by rw [← h.keys, mem_keys]
  gate_iff := fun p g => by
    rw [← h.gates, ← mem_placesOf]
    constructor
    · intro hp
      exact ⟨_, mem_gates.2 ⟨rfl, List.ne_nil_of_mem hp⟩, hp⟩
    · rintro ⟨ps, hg, hp⟩
      obtain ⟨rfl, -⟩ := mem_gates.1 hg
      exact hp

/-- **What a split makes of a maze.** The maze is refused, without a place, when it has not exactly one start,
and else at the first neighbour of the start, row by row, that is off the board or no open floor. Around a
start on open floor the block of nine cells is replaced and nothing else. -/
theorem split_spec (m : Maze) :
    (∀ d, m.split = .error (.defectOf d) ↔
      m.starts.length ≠ 1 ∧ d = .splitStarts m.starts.length) ∧
    (∀ d p, m.split = .error (.defectAt d p) ↔
      d = .splitBlocked ∧ ∃ s, m.starts = [s] ∧ m.FirstBlocked s p) ∧
    ((∃ m', m.split = .ok m') ↔
      ∃ s, m.starts = [s] ∧ ∀ p, InBlock s p → p ≠ s → m.at? p = some .floor) ∧
    ∀ m', m.split = .ok m' → ∃ s, m.starts = [s] ∧ m.Quartered s m' := by
  refine ⟨fun d => ⟨fun hd => ?_, ?_⟩, fun d p => ⟨fun hp => ?_, ?_⟩, ⟨?_, ?_⟩, fun m' hm' => ?_⟩
  · rcases m.split_cases with ⟨s, m', hm', -⟩ | ⟨s, q, -, -, he⟩ | ⟨hmany, he⟩
    · cases hm'.symm.trans hd
    · cases he.symm.trans hd
    · cases he.symm.trans hd
      exact ⟨hmany, rfl⟩
  · rintro ⟨hmany, rfl⟩
    exact split_of_starts hmany
  · rcases m.split_cases with ⟨s, m', hm', -⟩ | ⟨s, q, hs, hq, he⟩ | ⟨-, he⟩
    · cases hm'.symm.trans hp
    · obtain ⟨r, k⟩ := p
      obtain ⟨i, j⟩ := q
      cases he.symm.trans hp
      exact ⟨rfl, s, hs, find?_ring_eq_some_iff.1 hq⟩
    · cases he.symm.trans hp
  · rintro ⟨rfl, s, hs, hfirst⟩
    exact split_of_blocked hs (find?_ring_eq_some_iff.2 hfirst)
  · rintro ⟨m', hm'⟩
    obtain ⟨s, hcut⟩ := cut_of_split hm'
    exact ⟨s, hcut.lone, fun p hp hne => hcut.floor p (mem_ring hp hne)⟩
  · rintro ⟨s, hs, hfloor⟩
    obtain ⟨m', hm', -⟩ := exists_cut hs <| List.find?_eq_none.2 fun p hp => by
      simpa using hfloor p (mem_ring_iff.1 hp).1 (mem_ring_iff.1 hp).2
    exact ⟨m', hm'⟩
  · obtain ⟨s, hcut⟩ := cut_of_split hm'
    exact ⟨s, hcut.lone, hcut.quartered⟩

example : (do
    let m ← ofText "@..\n..."
    m.split) = .error (.defectAt .splitBlocked ⟨-1, -1⟩) := by cbv

end GatedMaze.Maze
