import GatedMaze.Maze.Search
import GatedMaze.Proofs.Walks

/-!
# What a search finds

A queue serves the places that so many moves reach before those that are further away, so a search goes
out level by level. After `n` levels its marks are the places that at most `n` moves reach, and the last
level holds each place that is `n` moves away once, with a shortest walk to it. One more level keeps
this, so a search finds every place that a walk leads to, once, by a shortest walk.

* `serve_append`, `serve_eq_spread`: what a queue serves is one level after the other.
* `reached_nextLevel`: one more level.
* `found_of_mem_search`: each visit stands for a shortest walk and the gates on it.
* `exists_mem_search`: every place that a walk leads to is visited.
* `search_eq_cons`, `nodup_search`: the origin is visited first, and no place is visited twice.
* `sorted_search`: the visits come in the order of their moves.
-/

namespace GatedMaze

namespace Visit

variable {marks : Board Bool} {vs : List Visit} {v : Visit} {q : Coord}

theorem holds_fresh : (fresh marks vs).1.Holds q ↔ marks.Holds q := by
  induction vs generalizing marks with
  | nil => rfl
  | cons u vs ih =>
    unfold fresh
    split
    · exact ih.trans Board.holds_set
    · exact ih

/-- A kept visit is one of those that were tried, and its place was unmarked. -/
theorem mem_fresh (h : v ∈ (fresh marks vs).2) : v ∈ vs ∧ marks.get? v.place = some false := by
  induction vs generalizing marks with
  | nil => simp [fresh] at h
  | cons u vs ih =>
    unfold fresh at h
    split at h
    · next hu =>
      rcases List.mem_cons.1 h with rfl | h
      · exact ⟨List.mem_cons_self, hu⟩
      · obtain ⟨hv, hm⟩ := ih h
        refine ⟨List.mem_cons_of_mem _ hv, ?_⟩
        rw [Board.get?_set] at hm
        split at hm
        · simp at hm
        · exact hm
    · obtain ⟨hv, hm⟩ := ih h
      exact ⟨List.mem_cons_of_mem _ hv, hm⟩

/-- **What is marked afterwards**: what was marked before and the places that were tried. -/
theorem marked_fresh : (fresh marks vs).1.get? q = some true ↔
    marks.get? q = some true ∨ marks.Holds q ∧ ∃ v ∈ vs, v.place = q := by
  induction vs generalizing marks with
  | nil => simp [fresh]
  | cons u vs ih =>
    simp only [List.mem_cons, exists_eq_or_imp]
    unfold fresh
    split
    · next hu =>
      have hh : marks.Holds u.place := Board.isSome_get?.1 (by simp [hu])
      simp only [ih, Board.get?_set, Board.holds_set]
      by_cases e : u.place = q
      · subst e; simp [hh]
      · simp [e]
    · next hu =>
      rw [ih]
      constructor
      · rintro (h | ⟨hh, h⟩)
        · exact .inl h
        · exact .inr ⟨hh, .inr h⟩
      · rintro (h | ⟨hh, rfl | h⟩)
        · exact .inl h
        · -- on the board and not unmarked, so it was marked before
          obtain ⟨b, hb⟩ := Option.isSome_iff_exists.1 (Board.isSome_get?.2 hh)
          cases b with
          | true => exact .inl hb
          | false => exact absurd hb hu
        · exact .inr ⟨hh, h⟩

theorem exists_mem_fresh (hv : v ∈ vs) (hm : marks.get? v.place = some false) :
    ∃ u ∈ (fresh marks vs).2, u.place = v.place := by
  induction vs generalizing marks with
  | nil => simp at hv
  | cons u vs ih =>
    unfold fresh
    by_cases e : u.place = v.place
    · rw [if_pos (e ▸ hm)]
      exact ⟨u, List.mem_cons_self, e⟩
    · have hv : v ∈ vs := by
        rcases List.mem_cons.1 hv with rfl | hv
        · exact absurd rfl e
        · exact hv
      split
      · have hm' : (marks.set u.place true).get? v.place = some false := by
          rw [Board.get?_set, if_neg fun h => e h.1, hm]
        obtain ⟨w, hw, hp⟩ := ih hv hm'
        exact ⟨w, List.mem_cons_of_mem _ hw, hp⟩
      · exact ih hv hm

theorem nodup_fresh : ((fresh marks vs).2.map place).Nodup := by
  induction vs generalizing marks with
  | nil => exact List.nodup_nil
  | cons u vs ih =>
    unfold fresh
    split
    · next hu =>
      refine List.nodup_cons.2 ⟨fun h => ?_, ih⟩
      obtain ⟨v, hv, hp⟩ := List.mem_map.1 h
      have hh : marks.Holds u.place := Board.isSome_get?.1 (by simp [hu])
      have := (mem_fresh hv).2
      rw [hp, Board.get?_set, if_pos ⟨rfl, hh⟩] at this
      simp at this
    · exact ih

/-- Visits that are tried after others find the marks of these. -/
theorem fresh_append (marks : Board Bool) (us vs : List Visit) :
    fresh marks (us ++ vs) = ((fresh (fresh marks us).1 vs).1,
      (fresh marks us).2 ++ (fresh (fresh marks us).1 vs).2) := by
  induction us generalizing marks with
  | nil => rfl
  | cons u us ih =>
    by_cases hu : marks.get? u.place = some false
    · simp only [List.cons_append, fresh, if_pos hu, ih]
    · simp only [List.cons_append, fresh, if_neg hu, ih]

end Visit

namespace Maze

variable {m : Maze} {p q : Coord} {v u : Visit} {n k : Nat} {marks : Board Bool}
  {level : List Visit}

/-! ## Level by level -/

/-- The level after a level, and the marks with its places added. -/
def nextLevel (m : Maze) (marks : Board Bool) (level : List Visit) : Board Bool × List Visit :=
  Visit.fresh marks (level.flatMap m.neighbours)

/-- The visits of a level and of all levels after it. -/
def spread (m : Maze) (marks : Board Bool) (level : List Visit) : List Visit :=
  let next := m.nextLevel marks level
  if next.2 = [] then level else level ++ m.spread next.1 next.2
termination_by Visit.free marks
decreasing_by
  have h1 := Visit.free_fresh marks (level.flatMap m.neighbours)
  have h2 : 0 < (m.nextLevel marks level).2.length := List.length_pos_iff.2 ‹¬ _ = []›
  unfold nextLevel at *
  omega

theorem spread_of_last (hl : (m.nextLevel marks level).2 = []) : m.spread marks level = level := by
  rw [spread, if_pos hl]

theorem spread_of_more (hl : (m.nextLevel marks level).2 ≠ []) :
    m.spread marks level =
      level ++ m.spread (m.nextLevel marks level).1 (m.nextLevel marks level).2 := by
  rw [spread, if_neg hl]

/-- **A queue serves what waits at its front**, and what this finds waits behind the others. -/
theorem serve_append (m : Maze) (marks : Board Bool) (level later : List Visit) :
    m.serve marks (level ++ later) =
      level ++ m.serve (m.nextLevel marks level).1 (later ++ (m.nextLevel marks level).2) := by
  induction level generalizing marks later with
  | nil =>
    have hnext : m.nextLevel marks [] = (marks, []) := rfl
    rw [hnext, List.append_nil]
    rfl
  | cons v level ih =>
    have hnext : m.nextLevel marks (v :: level) =
        ((m.nextLevel (Visit.fresh marks (m.neighbours v)).1 level).1,
          (Visit.fresh marks (m.neighbours v)).2 ++
            (m.nextLevel (Visit.fresh marks (m.neighbours v)).1 level).2) :=
      Visit.fresh_append marks (m.neighbours v) (level.flatMap m.neighbours)
    rw [List.cons_append, serve, List.append_assoc, ih, hnext, List.cons_append, List.append_assoc]

/-- **A queue serves one level after the other.** -/
theorem serve_eq_spread (m : Maze) (marks : Board Bool) (level : List Visit) :
    m.serve marks level = m.spread marks level := by
  have hserve := m.serve_append marks level []
  rw [List.append_nil, List.nil_append] at hserve
  induction marks, level using spread.induct m with
  | case1 marks level next =>
    rename_i hlast
    rw [hserve, spread_of_last hlast, hlast, serve, List.append_nil]
  | case2 marks level next =>
    rename_i hmore ih
    have hnext := m.serve_append next.1 next.2 []
    rw [List.append_nil, List.nil_append] at hnext
    rw [hserve, spread_of_more hmore, ih hnext]

/-- A shortest walk. -/
def Shortest (m : Maze) (p : Coord) (ds : List Move) (q : Coord) : Prop :=
  m.Walk p ds q ∧ ∀ es, m.Walk p es q → ds.length ≤ es.length

/-- A visit that stands for a shortest walk from `p`, with its length and its gates. -/
def Found (m : Maze) (p : Coord) (v : Visit) : Prop :=
  ∃ ds, m.Shortest p ds v.place ∧ ds.length = v.moves ∧ m.gatesOn (p.trail ds) = v.gates

theorem Found.apart (h : m.Found p v) : m.Apart p v.moves v.place := by
  obtain ⟨ds, ⟨hw, hmin⟩, hl, -⟩ := h
  refine ⟨⟨ds, hw, hl⟩, ?_⟩
  rintro k ⟨es, he, rfl⟩
  exact hl ▸ hmin es he

/-- One more move of a visit goes to an open place and adds the gate there. -/
theorem go?_eq_some_iff {d : Move} : m.go? v d = some u ↔
    m.IsOpen (v.place.step d) ∧ u = ⟨v.place.step d, v.moves + 1,
      match m.at? (v.place.step d) with | some (.gate g) => v.gates.add g | _ => v.gates⟩ := by
  unfold go? IsOpen
  cases hc : m.at? (v.place.step d) with
  | none => simp
  | some c => cases c <;> simp [eq_comm]

theorem mem_neighbours : u ∈ m.neighbours v ↔ ∃ d, m.go? v d = some u := by
  simp [neighbours, List.mem_filterMap, Move.mem_all]

/-- One more move keeps what a visit stands for, if it goes to a place that is further away. -/
theorem Found.go? {d : Move} (h : m.Found p v) (hgo : m.go? v d = some u)
    (hnew : ∀ k ≤ v.moves, ¬ m.Reaches p k u.place) : m.Found p u := by
  obtain ⟨hopen, rfl⟩ := go?_eq_some_iff.1 hgo
  obtain ⟨ds, ⟨hw, -⟩, hl, hg⟩ := h
  refine ⟨ds ++ [d], ⟨hw.append (walk_single_iff.2 ⟨rfl, hopen⟩), fun es he => ?_⟩, by simp [hl], ?_⟩
  · rcases Nat.lt_or_ge v.moves es.length with hlt | hle
    · rw [List.length_append, hl]; exact hlt
    · exact absurd ⟨es, he, rfl⟩ (hnew _ hle)
  · have htrail : p.trail (ds ++ [d]) = p.trail ds ++ [v.place.step d] := by
      rw [Coord.trail_append, hw.ends]; rfl
    have hgates := m.gatesOn_append_single (p.trail ds) (v.place.step d)
    rw [hg] at hgates
    rw [htrail]
    exact hgates

/-- What a search from `p` knows after `n` levels. -/
structure Reached (m : Maze) (p : Coord) (n : Nat) (marks : Board Bool) (level : List Visit) :
    Prop where
  holds : ∀ q, marks.Holds q ↔ m.board.Holds q
  marked : ∀ q, marks.get? q = some true ↔ ∃ k ≤ n, m.Reaches p k q
  sound : ∀ v ∈ level, m.Found p v ∧ v.moves = n
  complete : ∀ q, m.Apart p n q → ∃ v ∈ level, v.place = q
  nodup : (level.map Visit.place).Nodup

theorem Reached.unmarked (h : m.Reached p n marks level) (ho : m.board.Holds q) :
    marks.get? q = some false ↔ ∀ k ≤ n, ¬ m.Reaches p k q := by
  obtain ⟨b, hb⟩ := Option.isSome_iff_exists.1 (Board.isSome_get?.2 ((h.holds q).2 ho))
  have hm := h.marked q
  cases b with
  | true =>
    obtain ⟨k, hk, hr⟩ := hm.1 hb
    simp only [hb, Option.some.injEq, Bool.true_eq_false, false_iff, not_forall, not_not]
    exact ⟨k, hk, hr⟩
  | false =>
    simp only [hb, true_iff]
    intro k hk hr
    simpa [hb] using hm.2 ⟨k, hk, hr⟩

/-- The places one move from the last level are open, and each of them is reached. -/
theorem Reached.reaches_neighbour (h : m.Reached p n marks level)
    (hu : u ∈ level.flatMap m.neighbours) : m.IsOpen u.place ∧ m.Reaches p (n + 1) u.place := by
  obtain ⟨v, hv, hn⟩ := List.mem_flatMap.1 hu
  obtain ⟨d, hgo⟩ := mem_neighbours.1 hn
  obtain ⟨hopen, rfl⟩ := go?_eq_some_iff.1 hgo
  obtain ⟨hf, rfl⟩ := h.sound v hv
  exact ⟨hopen, reaches_succ_iff.2 ⟨v.place, d, hf.apart.1, rfl, hopen⟩⟩

/-- Each place one move further away is one move from the last level. -/
theorem Reached.exists_neighbour (h : m.Reached p n marks level) (hq : m.Apart p (n + 1) q) :
    ∃ u ∈ level.flatMap m.neighbours, u.place = q := by
  obtain ⟨x, d, hx, rfl, hopen⟩ := hq.exists_before
  obtain ⟨v, hv, rfl⟩ := h.complete x hx
  exact ⟨_, List.mem_flatMap.2 ⟨v, hv, mem_neighbours.2 ⟨d, go?_eq_some_iff.2 ⟨hopen, rfl⟩⟩⟩, rfl⟩

/-- **One more level.** -/
theorem reached_nextLevel (h : m.Reached p n marks level) :
    m.Reached p (n + 1) (m.nextLevel marks level).1 (m.nextLevel marks level).2 where
  holds := fun q => Visit.holds_fresh.trans (h.holds q)
  marked := by
    intro q
    rw [nextLevel, Visit.marked_fresh, h.marked]
    constructor
    · rintro (⟨k, hk, hr⟩ | ⟨-, u, hu, rfl⟩)
      · exact ⟨k, by omega, hr⟩
      · exact ⟨n + 1, le_rfl, (h.reaches_neighbour hu).2⟩
    · rintro ⟨k, hk, hr⟩
      by_cases hnew : ∃ k ≤ n, m.Reaches p k q
      · exact .inl hnew
      · have hk : k = n + 1 := by
          rcases Nat.eq_or_lt_of_le hk with hk | hk
          · exact hk
          · exact absurd ⟨k, by omega, hr⟩ hnew
        subst hk
        obtain ⟨x, d, -, -, hopen⟩ := reaches_succ_iff.1 hr
        have hq : m.Apart p (n + 1) q := by
          refine ⟨hr, fun j hj => ?_⟩
          rcases Nat.lt_or_ge n j with hlt | hle
          · exact hlt
          · exact absurd ⟨j, hle, hj⟩ hnew
        exact .inr ⟨(h.holds q).2 hopen.holds, h.exists_neighbour hq⟩
  sound := by
    intro u hu
    obtain ⟨hmem, hfree⟩ := Visit.mem_fresh hu
    have hnew := (h.unmarked (h.reaches_neighbour hmem).1.holds).1 hfree
    obtain ⟨v, hv, hn⟩ := List.mem_flatMap.1 hmem
    obtain ⟨d, hgo⟩ := mem_neighbours.1 hn
    obtain ⟨hf, hm⟩ := h.sound v hv
    refine ⟨hf.go? hgo (by rwa [hm]), ?_⟩
    obtain ⟨-, rfl⟩ := go?_eq_some_iff.1 hgo
    exact congrArg (· + 1) hm
  complete := by
    intro q hq
    obtain ⟨u, hu, rfl⟩ := h.exists_neighbour hq
    exact Visit.exists_mem_fresh hu
      ((h.unmarked (h.reaches_neighbour hu).1.holds).2 (apart_succ_iff.1 hq).2)
  nodup := Visit.nodup_fresh

/-- **What a search adds from some level on.** -/
theorem spread_spec (h : m.Reached p n marks level) :
    (∀ v ∈ m.spread marks level, m.Found p v ∧ n ≤ v.moves) ∧
      (∀ k q, n ≤ k → m.Apart p k q → ∃ v ∈ m.spread marks level, v.place = q) ∧
      ((m.spread marks level).map Visit.place).Nodup := by
  induction marks, level using spread.induct m generalizing n with
  | case1 marks level next =>
    rename_i hlast
    rw [spread_of_last hlast]
    refine ⟨fun v hv => ⟨(h.sound v hv).1, Nat.le_of_eq (h.sound v hv).2.symm⟩,
      fun k q hk hq => ?_, h.nodup⟩
    -- nothing is further away than the last level
    rcases Nat.eq_or_lt_of_le hk with rfl | hlt
    · exact h.complete q hq
    · obtain ⟨x, hx⟩ := hq.exists_apart_of_le hlt
      obtain ⟨v, hv, -⟩ := (reached_nextLevel h).complete x hx
      rw [hlast] at hv
      simp at hv
  | case2 marks level next =>
    rename_i hmore ih
    obtain ⟨hsound, hcomplete, hnodup⟩ := ih (reached_nextLevel h)
    rw [spread_of_more hmore]
    refine ⟨fun v hv => ?_, fun k q hk hq => ?_, ?_⟩
    · rcases List.mem_append.1 hv with hv | hv
      · exact ⟨(h.sound v hv).1, Nat.le_of_eq (h.sound v hv).2.symm⟩
      · obtain ⟨hf, hm⟩ := hsound v hv
        exact ⟨hf, by omega⟩
    · rcases Nat.eq_or_lt_of_le hk with rfl | hlt
      · obtain ⟨v, hv, hp⟩ := h.complete q hq
        exact ⟨v, List.mem_append_left _ hv, hp⟩
      · obtain ⟨v, hv, hp⟩ := hcomplete k q hlt hq
        exact ⟨v, List.mem_append_right _ hv, hp⟩
    · -- the later visits are further away than those of the level
      rw [List.map_append]
      refine List.nodup_append.2 ⟨h.nodup, hnodup, ?_⟩
      intro a ha b hb hab
      obtain ⟨v, hv, rfl⟩ := List.mem_map.1 ha
      obtain ⟨u, hu, rfl⟩ := List.mem_map.1 hb
      obtain ⟨hf, hm⟩ := h.sound v hv
      obtain ⟨hf', hm'⟩ := hsound u hu
      have := hf.apart.unique (hab ▸ hf'.apart)
      omega

theorem Reached.sorted (h : m.Reached p n marks level) :
    level.Pairwise fun u v => u.moves ≤ v.moves := by
  refine List.pairwise_of_forall_mem_list fun u hu v hv => ?_
  rw [(h.sound u hu).2, (h.sound v hv).2]

/-- **The visits come in the order of their moves.** -/
theorem sorted_spread (h : m.Reached p n marks level) :
    (m.spread marks level).Pairwise fun u v => u.moves ≤ v.moves := by
  induction marks, level using spread.induct m generalizing n with
  | case1 marks level next =>
    rename_i hlast
    rw [spread_of_last hlast]
    exact h.sorted
  | case2 marks level next =>
    rename_i hmore ih
    have hnext := reached_nextLevel h
    rw [spread_of_more hmore]
    refine List.pairwise_append.2 ⟨h.sorted, ih hnext, ?_⟩
    intro u hu v hv
    have hu := (h.sound u hu).2
    have hv := ((spread_spec hnext).1 v hv).2
    omega

/-- A search begins with its origin marked and nothing else. -/
theorem reached_origin (hp : m.board.Holds p) :
    m.Reached p 0 ((Board.replicate m.board.rows m.board.cols false).set p true)
      [⟨p, 0, .empty⟩] where
  holds := fun q => Iff.rfl
  marked := by
    intro q
    have hzero : (∃ k ≤ 0, m.Reaches p k q) ↔ p = q := by
      simp only [Nat.le_zero_eq, exists_eq_left, reaches_zero_iff]
    have hh : (Board.replicate m.board.rows m.board.cols false).Holds p := hp
    rw [hzero, Board.get?_set]
    by_cases e : p = q
    · simp [e, e ▸ hh]
    · rw [if_neg fun h => e h.1]
      simp only [e, iff_false]
      unfold Board.get?
      split
      · simp [Board.replicate, Array.getElem?_replicate]
      · simp
  sound := by
    intro v hv
    obtain rfl := List.mem_singleton.1 hv
    exact ⟨⟨[], ⟨walk_nil_iff.2 rfl, fun es _ => Nat.zero_le _⟩, rfl, rfl⟩, rfl⟩
  complete := by
    intro q hq
    obtain rfl := reaches_zero_iff.1 hq.1
    exact ⟨_, List.mem_singleton_self _, rfl⟩
  nodup := List.pairwise_singleton _ _

/-- **Each visit of a search stands for a shortest walk.** -/
theorem found_of_mem_search (hp : m.board.Holds p) (hv : v ∈ m.search p) : m.Found p v := by
  rw [search, serve_eq_spread] at hv
  exact ((spread_spec (reached_origin hp)).1 v hv).1

/-- **Every place that a walk leads to is visited.** -/
theorem exists_mem_search (hp : m.board.Holds p) {ds : List Move} (h : m.Walk p ds q) :
    ∃ v ∈ m.search p, v.place = q := by
  obtain ⟨k, hk⟩ := Reaches.exists_apart ⟨ds, h, rfl⟩
  rw [search, serve_eq_spread]
  exact (spread_spec (reached_origin hp)).2.1 k q (Nat.zero_le k) hk

theorem nodup_search (hp : m.board.Holds p) : ((m.search p).map Visit.place).Nodup := by
  rw [search, serve_eq_spread]
  exact (spread_spec (reached_origin hp)).2.2

theorem sorted_search (hp : m.board.Holds p) :
    (m.search p).Pairwise fun u v => u.moves ≤ v.moves := by
  rw [search, serve_eq_spread]
  exact sorted_spread (reached_origin hp)

/-- The origin is visited first. -/
theorem search_eq_cons (m : Maze) (p : Coord) : m.search p = ⟨p, 0, .empty⟩ :: (m.search p).tail := by
  rw [search, serve, List.tail_cons]

/-- The visits after the first are those of other places than the origin. -/
theorem mem_tail_search (hp : m.board.Holds p) :
    v ∈ (m.search p).tail ↔ v ∈ m.search p ∧ v.place ≠ p := by
  have hnodup := nodup_search hp
  rw [search_eq_cons, List.map_cons, List.nodup_cons] at hnodup
  constructor
  · intro hv
    exact ⟨List.mem_of_mem_tail hv, fun e => hnodup.1 (List.mem_map.2 ⟨v, hv, e⟩)⟩
  · rintro ⟨hv, hne⟩
    rw [search_eq_cons] at hv
    rcases List.mem_cons.1 hv with rfl | hv
    · exact absurd rfl hne
    · exact hv

end Maze

end GatedMaze
