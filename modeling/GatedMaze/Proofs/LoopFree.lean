import GatedMaze.Proofs.Collecting
import Mathlib.Combinatorics.SimpleGraph.Acyclic

/-!
# Mazes without loops

The open places of a maze are the vertices of a graph, with an edge for each move between two of them.
When this graph has no cycle there is only one way without detours between two places, and every walk
comes past all of it. So the gates on a leg cannot be avoided, and the table of a maze with one start
tells all there is to know about its walks.

* `exists_graphWalk`, `exists_walk_of_graphWalk`: walks of the maze are walks of its graph.
* `trail_subset_of_loopFree`: without loops every walk comes past the places of a shortest one.
* `unavoidable_of_loopFree`: so no gate on a leg can be avoided.
* `walk_replayed_of_loopFree`: the order in which a walk first comes to keys is accepted, and it costs
  no more moves than the walk.
-/

namespace GatedMaze

namespace Maze

variable {m : Maze} {p q s : Coord} {ds es : List Move} {t : LegTable}

/-- The open places of a maze, joined by the moves between them. -/
def graph (m : Maze) : SimpleGraph Coord where
  Adj p q := m.IsOpen p ∧ m.IsOpen q ∧ ∃ d, p.step d = q
  symm := ⟨fun p q ⟨hp, hq, d, hd⟩ => ⟨hq, hp, d.opposite, by rw [← hd, Coord.step_opposite]⟩⟩
  loopless := ⟨fun p ⟨_, _, d, hd⟩ => by
    cases p
    cases d <;> simp [Coord.step] at hd⟩

theorem graph_adj_iff : m.graph.Adj p q ↔ m.IsOpen p ∧ m.IsOpen q ∧ ∃ d, p.step d = q := Iff.rfl

/-- No way through the maze leads round in a circle. -/
def LoopFree (m : Maze) : Prop := m.graph.IsAcyclic

/-- A walk of the maze is a walk of its graph past the same places. -/
theorem exists_graphWalk (hp : m.IsOpen p) (h : m.Walk p ds q) :
    ∃ w : m.graph.Walk p q, w.support = p :: p.trail ds ∧ w.length = ds.length := by
  induction ds generalizing p with
  | nil =>
    obtain rfl := walk_nil_iff.1 h
    exact ⟨.nil, rfl, rfl⟩
  | cons d ds ih =>
    have hstep : m.IsOpen (p.step d) := h.opens _ List.mem_cons_self
    have hrest : m.Walk (p.step d) ds q := ⟨fun x hx => h.opens x (List.mem_cons_of_mem _ hx), h.ends⟩
    obtain ⟨w, hsupp, hlen⟩ := ih hstep hrest
    have hadj : m.graph.Adj p (p.step d) := ⟨hp, hstep, d, rfl⟩
    refine ⟨.cons hadj w, ?_, ?_⟩
    · rw [SimpleGraph.Walk.support_cons, hsupp]
      rfl
    · rw [SimpleGraph.Walk.length_cons, hlen]
      rfl

/-- A walk of the graph is made by as many moves. -/
theorem exists_walk_of_graphWalk (w : m.graph.Walk p q) :
    ∃ ds, m.Walk p ds q ∧ ds.length = w.length := by
  induction w with
  | nil => exact ⟨[], walk_nil_iff.2 rfl, rfl⟩
  | cons hadj w ih =>
    obtain ⟨-, hopen, d, hd⟩ := graph_adj_iff.1 hadj
    obtain ⟨ds, hw, hlen⟩ := ih
    refine ⟨[d] ++ ds, (walk_single_iff.2 ⟨hd, hopen⟩).append hw, ?_⟩
    rw [SimpleGraph.Walk.length_cons, ← hlen]
    rfl

/-- A shortest walk comes past no place twice. -/
theorem Shortest.isPath (h : m.Shortest p ds q) {w : m.graph.Walk p q} (hw : w.length = ds.length) :
    w.IsPath := by
  obtain ⟨es, hes, hlen⟩ := exists_walk_of_graphWalk w.bypass
  have hmin : ds.length ≤ es.length := h.2 es hes
  have hself : w.bypass = w := w.bypass_eq_self_of_length_le_length_bypass (by omega)
  rw [← hself]
  exact w.bypass_isPath

/-- **Without loops every walk comes past the places of a shortest one.** -/
theorem trail_subset_of_loopFree (hl : m.LoopFree) (hp : m.IsOpen p) (hs : m.Shortest p ds q)
    (he : m.Walk p es q) : p.trail ds ⊆ p :: p.trail es := by
  obtain ⟨w, hsupp, hlen⟩ := exists_graphWalk hp hs.1
  obtain ⟨v, hsupp', -⟩ := exists_graphWalk hp he
  -- the walk without its detours is the only path there is
  have hpath : (⟨w, hs.isPath hlen⟩ : m.graph.Path p q) = ⟨v.bypass, v.bypass_isPath⟩ :=
    (hl.subsingleton_path p q).elim _ _
  have hw : w = v.bypass := congrArg Subtype.val hpath
  intro x hx
  have hmem : x ∈ w.support := by
    rw [hsupp]
    exact List.mem_cons_of_mem _ hx
  rw [hw] at hmem
  rw [← hsupp']
  exact v.support_bypass_subset_support hmem

/-- **Without loops no gate on a leg can be avoided**, if there is one start. -/
theorem unavoidable_of_loopFree (hs : ∀ p, m.at? p = some .start ↔ p = s) (hl : m.LoopFree)
    (ht : m.legs = .ok t) : m.Unavoidable t := by
  intro a b leg p q es hleg hp hq hw
  obtain ⟨-, p', q', hp', hq', ds, hshort, -, hgates⟩ := (legs_ok ht).1.sound a b leg hleg
  obtain rfl := landmark_unique_of_one_start hs hp hp'
  obtain rfl := landmark_unique_of_one_start hs hq hq'
  have hsub := trail_subset_of_loopFree hl (isOpen_of_landmark? hp) hshort hw
  rw [IdSet.subset_iff, ← hgates]
  intro i hi
  obtain ⟨x, hx, g, hg, rfl⟩ := testBit_gatesOn.1 (IdSet.mem_toNats.1 hi)
  -- the walk sets out from a landmark, which is no gate
  have hne : x ≠ p := fun e => not_gate_of_landmark? hp g (e ▸ hg)
  have hx' : x ∈ p.trail es := (List.mem_cons.1 (hsub hx)).resolve_left hne
  exact IdSet.mem_toNats.2 (testBit_gatesOn.2 ⟨x, hx', g, hg, rfl⟩)

/-- Places numbered so that at most one move leads from each to a number that is no larger make a maze
without loops: a circle would have two such moves at its largest number. -/
theorem loopFree_of_rank (rank : Coord → Nat) (h : ∀ p d e, m.IsOpen p → m.IsOpen (p.step d) →
    m.IsOpen (p.step e) → rank (p.step d) ≤ rank p → rank (p.step e) ≤ rank p → d = e) :
    m.LoopFree := by
  intro v c hc
  -- the circle is turned so that it sets out from its largest number
  obtain ⟨x, hx, hmax⟩ := c.support.toFinset.exists_max_image rank ⟨v, by simp⟩
  rw [List.mem_toFinset] at hx
  have hc' := hc.rotate hx
  have hle : ∀ y ∈ (c.rotate x hx).support, rank y ≤ rank x := by
    intro y hy
    refine hmax y ?_
    rw [List.mem_toFinset]
    exact (c.mem_support_rotate_iff x hx).1 hy
  obtain ⟨hopen, hopen₁, d, hd⟩ := graph_adj_iff.1 ((c.rotate x hx).adj_snd hc'.not_nil)
  obtain ⟨hopen₂, -, e, he⟩ := graph_adj_iff.1 ((c.rotate x hx).adj_penultimate hc'.not_nil)
  have he' := Coord.step_opposite (c.rotate x hx).penultimate e
  rw [he] at he'
  have hde : d = e.opposite := by
    refine h x d e.opposite hopen (hd ▸ hopen₁) (he' ▸ hopen₂) ?_ ?_
    · rw [hd]
      exact hle _ (SimpleGraph.Walk.getVert_mem_support _ _)
    · rw [he']
      exact hle _ (SimpleGraph.Walk.getVert_mem_support _ _)
  refine hc'.snd_ne_penultimate ?_
  rw [← hd, ← he', hde]

end Maze

open Maze

variable {m : Maze} {t : LegTable} {s : Coord} {ds : List Move}

/-- When no gate on a leg can be avoided, the order in which a walk first comes to keys is accepted, and it
costs no more moves than the walk makes. -/
theorem exists_replay_firstVisits (hs : m.starts = [s]) (ht : m.legs = .ok t) (hu : m.Unavoidable t)
    (hw : m.Admits [s] (s.trail ds)) :
    ∃ r, (replay t m.startId (m.firstVisits (s :: s.trail ds)) none).outcome = .ok r ∧
      r.cost ≤ ds.length := by
  have hstart := start_iff_of_starts hs
  have hwalk : m.Walk s ds (s.follow ds) := ⟨fun _ hx => hw.isOpen hx, rfl⟩
  obtain ⟨w, ha⟩ := exists_along_firstVisits hstart ht hu hwalk hw
  obtain ⟨r, hr, hcost⟩ := replay_ok_iff.2 ⟨w, ha, rfl⟩
  obtain ⟨p, es, -, -, hle, -⟩ := exists_since_first_visit hstart ht hwalk ha
  exact ⟨r, hr, by omega⟩

/-- **Without loops every walk is in the table.** When a walk from the only start keeps to the gates, the
order in which it first comes to keys, be it all of them or not, is accepted, and it costs no more moves
than the walk makes. -/
theorem walk_replayed_of_loopFree (hs : m.starts = [s]) (hl : m.LoopFree)
    (hw : m.Admits [s] (s.trail ds)) : ∃ t r, m.legs = .ok t ∧
      (replay t m.startId (m.firstVisits (s :: s.trail ds)) none).outcome = .ok r ∧
      r.cost ≤ ds.length := by
  obtain ⟨t, ht⟩ := exists_legs_of_starts hs
  obtain ⟨r, hr, hle⟩ :=
    exists_replay_firstVisits hs ht (unavoidable_of_loopFree (start_iff_of_starts hs) hl ht) hw
  exact ⟨t, r, ht, hr, hle⟩

/-- A fork with `a` at one end and `b` at the other, behind gate `A`. -/
def fork : Maze where
  board :=
    { rows := 4
      cols := 3
      cells := (['#', '#', 'a', '@', '.', '.', '#', '#', 'A', '#', '#', 'b'].filterMap
        Cell.ofChar?).toArray
      size_cells := by decide }
  keys_nodup := by decide

theorem loopFree_fork : fork.LoopFree := by
  -- the number of a place is its distance from the start as the crow flies
  refine loopFree_of_rank (fun p => (p.row - 1).natAbs + p.col.natAbs) fun p d e hp hd he => ?_
  have hall : ∀ v ∈ fork.board.places, ∀ d ∈ Move.all, ∀ e ∈ Move.all, fork.IsOpen v.1 →
      fork.IsOpen (v.1.step d) → fork.IsOpen (v.1.step e) →
      ((v.1.step d).row - 1).natAbs + (v.1.step d).col.natAbs ≤
        (v.1.row - 1).natAbs + v.1.col.natAbs →
      ((v.1.step e).row - 1).natAbs + (v.1.step e).col.natAbs ≤
        (v.1.row - 1).natAbs + v.1.col.natAbs → d = e := by decide +kernel
  obtain ⟨c, hc, -⟩ := id hp
  exact hall (p, c) (Board.mem_places.2 hc) d d.mem_all e e.mem_all hp hd he

theorem walk_replayed_of_loopFree_fork : Maze.ofText "##a\n@..\n##A\n##b" = .ok fork ∧
    fork.Admits [⟨1, 0⟩] ((⟨1, 0⟩ : Coord).trail
      [.right, .right, .up, .down, .left, .right, .down, .down]) ∧
    ∃ t r, fork.legs = .ok t ∧ (replay t fork.startId (fork.firstVisits (⟨1, 0⟩ ::
      (⟨1, 0⟩ : Coord).trail [.right, .right, .up, .down, .left, .right, .down, .down])) none).outcome =
        .ok r ∧ r.cost ≤ 8 ∧ r.cost = 6 := by
  have hs : fork.starts = [⟨1, 0⟩] := by cbv
  have hw : fork.Admits [⟨1, 0⟩] ((⟨1, 0⟩ : Coord).trail
      [.right, .right, .up, .down, .left, .right, .down, .down]) := by decide +kernel
  -- the walk turns back once, which the replay does not
  have hcost : (do
      let t ← fork.legs
      let r ← (replay t fork.startId (fork.firstVisits (⟨1, 0⟩ :: (⟨1, 0⟩ : Coord).trail
        [.right, .right, .up, .down, .left, .right, .down, .down])) none).outcome
      pure r.cost) = .ok 6 := by cbv
  obtain ⟨t, r, ht, hr, hle⟩ := walk_replayed_of_loopFree hs loopFree_fork hw
  simp only [ht, hr, bind_ok_iff, pure_eq_ok, Except.ok.injEq, exists_eq_left'] at hcost
  exact ⟨by cbv, hw, t, r, ht, hr, hle, hcost⟩

end GatedMaze
