import GatedMaze.Proofs.Search
import Mathlib

/-!
# Which of several shortest walks a search finds

A search tries the moves in a fixed order, and moves can be compared in this order, one after the other. In
every level of a search the places stand in the order of the first walks that lead to them: their
neighbours are tried in the same order, so of several walks to a new place the first one is kept.

* `Visit.exists_sublist_fresh`: of several visits to a place the first is kept.
* `InOrder.exists_tried`, `exists_inOrder_nextLevel`: from a level to the next.
* `first_of_mem_search`: each visit of a search stands for the first of the shortest walks to its place.
-/

namespace GatedMaze

namespace Move

/-- The place of a move in the order down, up, right, left. -/
def rank : Move → Nat
  | .down => 0
  | .up => 1
  | .right => 2
  | .left => 3

/-- The moves are tried in this order. -/
theorem sorted_all : all.Pairwise fun d e => d.rank < e.rank := by decide

/-- Whether moves come before other ones: where they differ first they make the move of smaller rank. -/
def Precede (ds es : List Move) : Prop := List.Lex (fun d e => d.rank < e.rank) ds es

variable {ds es fs : List Move}

theorem Precede.trans (h : Precede ds es) (h' : Precede es fs) : Precede ds fs :=
  List.lex_trans Nat.lt_trans h h'

theorem precede_append_single {d e : Move} (h : d.rank < e.rank) (ds : List Move) :
    Precede (ds ++ [d]) (ds ++ [e]) :=
  List.Lex.append_left (fun d e : Move => d.rank < e.rank) (.rel h) ds

/-- Among moves of one length it makes no difference what follows them. -/
theorem Precede.append (h : Precede ds es) (hl : ds.length = es.length) (ds' es' : List Move) :
    Precede (ds ++ ds') (es ++ es') := by
  induction h with
  | nil => cases hl
  | rel hlt => exact .rel hlt
  | cons _ ih => exact .cons (ih (Nat.succ.inj hl))

end Move

namespace Visit

/-- **Of several visits to a place the first is kept**, if visits are made in some order. -/
theorem exists_sublist_fresh {α : Type} {r : α → α → Prop} (visit : α → Visit) {xs : List α}
    (hr : xs.Pairwise r) (marks : Board Bool) : ∃ ys : List α, ys.Sublist xs ∧
      (fresh marks (xs.map visit)).2 = ys.map visit ∧
      ∀ y ∈ ys, ∀ x ∈ xs, (visit x).place = (visit y).place → x = y ∨ r y x := by
  induction xs generalizing marks with
  | nil => exact ⟨[], .slnil, rfl, by simp⟩
  | cons x xs ih =>
    obtain ⟨hx, hr⟩ := List.pairwise_cons.1 hr
    rw [List.map_cons, fresh]
    split
    · next hfree =>
      obtain ⟨ys, hsub, hys, hfirst⟩ := ih hr (marks.set (visit x).place true)
      refine ⟨x :: ys, hsub.cons_cons x, congrArg (visit x :: ·) hys, fun y hy z hz hplace => ?_⟩
      rcases List.mem_cons.1 hy with rfl | hys'
      · exact (List.mem_cons.1 hz).imp_right (hx z)
      · rcases List.mem_cons.1 hz with rfl | hz
        · -- the place of the first visit is marked when the others are looked at
          have hmem : visit y ∈ (fresh (marks.set (visit z).place true) (xs.map visit)).2 :=
            hys ▸ List.mem_map_of_mem hys'
          have hholds : marks.Holds (visit z).place := Board.isSome_get?.1 (by simp [hfree])
          have hmark := (mem_fresh hmem).2
          rw [← hplace, Board.get?_set, if_pos ⟨rfl, hholds⟩] at hmark
          cases hmark
        · exact hfirst y hys' z hz hplace
    · next hmarked =>
      obtain ⟨ys, hsub, hys, hfirst⟩ := ih hr marks
      refine ⟨ys, hsub.cons x, hys, fun y hy z hz hplace => ?_⟩
      rcases List.mem_cons.1 hz with rfl | hz
      · have hmem : visit y ∈ (fresh marks (xs.map visit)).2 := hys ▸ List.mem_map_of_mem hy
        exact absurd (hplace ▸ (mem_fresh hmem).2) hmarked
      · exact hfirst y hy z hz hplace

end Visit

namespace Maze

open Move

variable {m : Maze} {p q : Coord} {ds es : List Move} {v : Visit} {n : Nat} {marks : Board Bool}
  {level : List Visit} {paths : List (List Move)}

/-- The first of the shortest walks between two places. -/
structure First (m : Maze) (p : Coord) (ds : List Move) (q : Coord) : Prop where
  shortest : m.Shortest p ds q
  precedes : ∀ es, m.Shortest p es q → es = ds ∨ Precede ds es

theorem Shortest.apart (h : m.Shortest p ds q) : m.Apart p ds.length q := by
  refine ⟨⟨ds, h.1, rfl⟩, ?_⟩
  rintro k ⟨es, he, rfl⟩
  exact h.2 es he

theorem Apart.shortest (h : m.Apart p n q) (hw : m.Walk p ds q) (hl : ds.length = n) :
    m.Shortest p ds q := ⟨hw, fun es he => hl ▸ h.2 _ ⟨es, he, rfl⟩⟩

/-- Without its last move a shortest walk is a shortest one. -/
theorem Shortest.front {d : Move} (h : m.Shortest p (ds ++ [d]) q) :
    m.Shortest p ds (p.follow ds) ∧ m.Walk (p.follow ds) [d] q := by
  obtain ⟨hfront, hlast⟩ := walk_append_iff.1 h.1
  refine ⟨⟨hfront, fun es he => ?_⟩, hlast⟩
  have hle := h.2 _ (he.append hlast)
  simpa using hle

/-- The visit at the end of moves from `p`. -/
def visitBy (m : Maze) (p : Coord) (ds : List Move) : Visit :=
  ⟨p.follow ds, ds.length, m.gatesOn (p.trail ds)⟩

/-- The moves with one more to an open place. -/
def extended (m : Maze) (p : Coord) (ds : List Move) : List (List Move) :=
  (Move.all.map fun d => ds ++ [d]).filter fun es => m.IsOpen (p.follow es)

theorem follow_append_single (p : Coord) (ds : List Move) (d : Move) :
    p.follow (ds ++ [d]) = (p.follow ds).step d := Coord.follow_append

theorem go?_visitBy (m : Maze) (p : Coord) (ds : List Move) (d : Move) :
    m.go? (m.visitBy p ds) d =
      if m.IsOpen (p.follow (ds ++ [d])) then some (m.visitBy p (ds ++ [d])) else none := by
  have htrail : p.trail (ds ++ [d]) = p.trail ds ++ [p.follow (ds ++ [d])] := by
    rw [Coord.trail_append, follow_append_single]
    rfl
  have hstep : (m.visitBy p ds).place.step d = p.follow (ds ++ [d]) := (follow_append_single p ds d).symm
  by_cases hopen : m.IsOpen (p.follow (ds ++ [d]))
  · rw [if_pos hopen, go?_eq_some_iff, hstep, visitBy, htrail, gatesOn_append_single, List.length_append]
    exact ⟨hopen, rfl⟩
  · rw [if_neg hopen]
    refine Option.eq_none_iff_forall_ne_some.2 fun u hu => hopen ?_
    exact hstep ▸ (go?_eq_some_iff.1 hu).1

/-- The neighbours of a place are visited by one more move. -/
theorem neighbours_visitBy (m : Maze) (p : Coord) (ds : List Move) :
    m.neighbours (m.visitBy p ds) = (m.extended p ds).map (m.visitBy p) := by
  unfold neighbours extended
  induction Move.all with
  | nil => rfl
  | cons d all ih =>
    rw [List.filterMap_cons, go?_visitBy, List.map_cons, List.filter_cons]
    by_cases hopen : m.IsOpen (p.follow (ds ++ [d])) <;> simp [hopen, ih]

theorem mem_extended : es ∈ m.extended p ds ↔ ∃ d, es = ds ++ [d] ∧ m.IsOpen (p.follow es) := by
  simp only [extended, List.mem_filter, List.mem_map, Move.mem_all, true_and, decide_eq_true_eq]
  constructor
  · rintro ⟨⟨d, rfl⟩, hopen⟩
    exact ⟨d, rfl, hopen⟩
  · rintro ⟨d, rfl, hopen⟩
    exact ⟨⟨d, rfl⟩, hopen⟩

/-- A level that visits places by walks of one length, in the order of these walks, each of which is the
first of the shortest ones. -/
structure InOrder (m : Maze) (p : Coord) (n : Nat) (level : List Visit) (paths : List (List Move)) :
    Prop where
  visits : level = paths.map (m.visitBy p)
  sorted : paths.Pairwise Precede
  length : ∀ ds ∈ paths, ds.length = n
  first : ∀ ds ∈ paths, m.First p ds (p.follow ds)

theorem InOrder.exists_first (ho : m.InOrder p n level paths) (hv : v ∈ level) :
    ∃ ds ∈ paths, m.First p ds v.place ∧ v = m.visitBy p ds := by
  rw [ho.visits] at hv
  obtain ⟨ds, hds, rfl⟩ := List.mem_map.1 hv
  exact ⟨ds, hds, ho.first ds hds, rfl⟩

/-- The walks with one more move are tried in their order. -/
theorem InOrder.sorted_extended (ho : m.InOrder p n level paths) :
    (paths.flatMap (m.extended p)).Pairwise Precede := by
  refine List.pairwise_flatMap.2 ⟨fun ds _ => ?_, ?_⟩
  · exact (List.pairwise_map.2 (sorted_all.imp fun h => precede_append_single h ds)).filter _
  · refine ho.sorted.imp_of_mem fun {ds es} hds hes h fs hfs gs hgs => ?_
    obtain ⟨d, rfl, -⟩ := mem_extended.1 hfs
    obtain ⟨e, rfl, -⟩ := mem_extended.1 hgs
    exact h.append ((ho.length ds hds).trans (ho.length es hes).symm) [d] [e]

/-- What is tried are walks with one more move. -/
theorem InOrder.walk_of_mem_extended (ho : m.InOrder p n level paths)
    (hes : es ∈ paths.flatMap (m.extended p)) : m.Walk p es (p.follow es) ∧ es.length = n + 1 := by
  obtain ⟨ds, hds, hes⟩ := List.mem_flatMap.1 hes
  obtain ⟨d, rfl, hopen⟩ := mem_extended.1 hes
  have hlast : m.Walk (p.follow ds) [d] (p.follow (ds ++ [d])) :=
    walk_single_iff.2 ⟨(follow_append_single p ds d).symm, hopen⟩
  refine ⟨(ho.first ds hds).shortest.1.append hlast, ?_⟩
  rw [List.length_append, ho.length ds hds]
  rfl

/-- **No shortest walk comes before those that are tried**: it comes by a place of the level, to which there
is a first walk. -/
theorem InOrder.exists_tried (h : m.Reached p n marks level) (ho : m.InOrder p n level paths)
    (hes : m.Shortest p es q) (hlen : es.length = n + 1) :
    ∃ fs ∈ paths.flatMap (m.extended p), p.follow fs = q ∧ (es = fs ∨ Precede fs es) := by
  obtain ⟨ds, d, rfl⟩ := (List.eq_nil_or_concat' es).resolve_left (by rintro rfl; cases hlen)
  obtain ⟨hds, hlast⟩ := hes.front
  have hdslen : ds.length = n := by simpa using hlen
  obtain ⟨v, hv, hplace⟩ := h.complete _ (hdslen ▸ hds.apart)
  obtain ⟨fs, hfs, hfirst, rfl⟩ := ho.exists_first hv
  have hfollow : p.follow fs = p.follow ds := hplace
  have hq : p.follow (fs ++ [d]) = q := by
    rw [follow_append_single, hfollow, (walk_single_iff.1 hlast).1]
  have hopen : m.IsOpen (p.follow (fs ++ [d])) := hq ▸ (walk_single_iff.1 hlast).2
  refine ⟨fs ++ [d], List.mem_flatMap.2 ⟨fs, hfs, mem_extended.2 ⟨d, rfl, hopen⟩⟩, hq, ?_⟩
  rcases hfirst.precedes ds (hplace ▸ hds) with rfl | hlt
  · exact .inl rfl
  · exact .inr (hlt.append ((ho.length fs hfs).trans hdslen.symm) [d] [d])

/-- **One more level.** -/
theorem exists_inOrder_nextLevel (h : m.Reached p n marks level) (ho : m.InOrder p n level paths) :
    ∃ paths', m.InOrder p (n + 1) (m.nextLevel marks level).2 paths' := by
  have htried : level.flatMap m.neighbours = (paths.flatMap (m.extended p)).map (m.visitBy p) := by
    rw [ho.visits, List.flatMap_map, List.map_flatMap]
    congr 1
    funext ds
    exact neighbours_visitBy m p ds
  obtain ⟨paths', hsub, hkept, hfirst⟩ :=
    Visit.exists_sublist_fresh (m.visitBy p) ho.sorted_extended marks
  rw [← htried] at hkept
  refine ⟨paths', hkept, ho.sorted_extended.sublist hsub,
    fun es hes => (ho.walk_of_mem_extended (hsub.subset hes)).2, fun es hes => ?_⟩
  obtain ⟨hwalk, hlen⟩ := ho.walk_of_mem_extended (hsub.subset hes)
  -- a kept visit is as near as it can be, so its walk is a shortest one
  have hapart : m.Apart p (n + 1) (p.follow es) := by
    have hvisit : m.visitBy p es ∈ (m.nextLevel marks level).2 := by
      rw [nextLevel, hkept]
      exact List.mem_map_of_mem hes
    obtain ⟨hfound, hmoves⟩ := (reached_nextLevel h).sound _ hvisit
    exact hmoves ▸ hfound.apart
  refine ⟨hapart.shortest hwalk hlen, fun fs hfs => ?_⟩
  obtain ⟨gs, hgs, hfollow, hle⟩ := ho.exists_tried h hfs (hfs.apart.unique hapart)
  rcases hfirst es hes gs hgs hfollow with rfl | hlt
  · exact hle
  · rcases hle with rfl | hle
    · exact .inr hlt
    · exact .inr (hlt.trans hle)

/-- The level of the origin. -/
theorem inOrder_origin (m : Maze) (p : Coord) : m.InOrder p 0 [⟨p, 0, .empty⟩] [[]] where
  visits := rfl
  sorted := List.pairwise_singleton _ _
  length := by simp
  first := by
    intro ds hds
    obtain rfl := List.mem_singleton.1 hds
    refine ⟨⟨walk_nil_iff.2 rfl, fun es _ => Nat.zero_le _⟩, fun es hes => .inl ?_⟩
    exact List.length_eq_zero_iff.1 (Nat.le_zero.1 (hes.2 [] (walk_nil_iff.2 rfl)))

/-- **From some level on every visit stands for the first of the shortest walks.** -/
theorem first_of_mem_spread (h : m.Reached p n marks level) (ho : m.InOrder p n level paths)
    (hv : v ∈ m.spread marks level) : ∃ ds, m.First p ds v.place ∧ v = m.visitBy p ds := by
  induction marks, level using spread.induct m generalizing n paths with
  | case1 marks level next =>
    rename_i hlast
    rw [spread_of_last hlast] at hv
    obtain ⟨ds, -, hds⟩ := ho.exists_first hv
    exact ⟨ds, hds⟩
  | case2 marks level next =>
    rename_i hmore ih
    rw [spread_of_more hmore] at hv
    rcases List.mem_append.1 hv with hv | hv
    · obtain ⟨ds, -, hds⟩ := ho.exists_first hv
      exact ⟨ds, hds⟩
    · obtain ⟨paths', ho'⟩ := exists_inOrder_nextLevel h ho
      exact ih (reached_nextLevel h) ho' hv

/-- **Each visit of a search stands for the first of the shortest walks to its place.** -/
theorem first_of_mem_search (hp : m.board.Holds p) (hv : v ∈ m.search p) :
    ∃ ds, m.First p ds v.place ∧ v = m.visitBy p ds := by
  rw [search, serve_eq_spread] at hv
  exact first_of_mem_spread (reached_origin hp) (inOrder_origin m p) hv

end Maze

end GatedMaze
