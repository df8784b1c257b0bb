import GatedMaze.Maze
import GatedMaze.Proofs.Ids
import Mathlib.Data.List.Induction
import Mathlib.Data.Nat.Find

/-!
# Walks in a maze

A walk makes moves from a place, none of them into a wall or off the board. Gates do not hold it
up, but it is known which ones it enters.

* `Walk.append`, `walk_append_iff`, `Walk.back`: walks can be joined, cut and made backwards.
* `testBit_gatesOn`, `gatesOn_back`: which gates a walk enters, also when it is made backwards.
* `apart_succ_iff`, `Apart.exists_before`: places that are one move further away.
-/

namespace GatedMaze

namespace Move

/-- The moves back. -/
def back (ds : List Move) : List Move := (ds.map opposite).reverse

theorem length_back (ds : List Move) : (back ds).length = ds.length := by simp [back]

theorem back_cons (d : Move) (ds : List Move) : back (d :: ds) = back ds ++ [d.opposite] := by
  simp [back]

end Move

namespace Coord

/-- The places that moves from `p` enter, in turn. -/
def trail (p : Coord) : List Move → List Coord
  | [] => []
  | d :: ds => p.step d :: (p.step d).trail ds

/-- Where moves from `p` lead. -/
def follow (p : Coord) (ds : List Move) : Coord := ds.foldl step p

variable {p : Coord} {ds es : List Move}

@[simp] theorem follow_nil (p : Coord) : p.follow [] = p := rfl

theorem follow_append : p.follow (ds ++ es) = (p.follow ds).follow es := List.foldl_append

theorem trail_append : p.trail (ds ++ es) = p.trail ds ++ (p.follow ds).trail es := by
  induction ds generalizing p with
  | nil => rfl
  | cons d ds ih => simp only [List.cons_append, trail, ih]; rfl

theorem follow_back : (p.follow ds).follow (Move.back ds) = p := by
  induction ds generalizing p with
  | nil => rfl
  | cons d ds ih =>
    have h : p.follow (d :: ds) = (p.step d).follow ds := rfl
    rw [h, Move.back_cons, follow_append, ih]
    exact step_opposite p d

/-- A place that moves enter is entered from a neighbour. -/
theorem exists_step_of_mem_trail {q : Coord} (h : q ∈ p.trail ds) :
    ∃ x ∈ p :: p.trail ds, ∃ d, x.step d = q := by
  induction ds generalizing p with
  | nil => simp [trail] at h
  | cons d ds ih =>
    rcases List.mem_cons.1 h with rfl | h
    · exact ⟨p, List.mem_cons_self, d, rfl⟩
    · obtain ⟨x, hx, hstep⟩ := ih h
      exact ⟨x, List.mem_cons_of_mem _ hx, hstep⟩

/-- Made backwards, moves come past the same places. -/
theorem cons_trail_back : p.follow ds :: (p.follow ds).trail (Move.back ds) =
    (p :: p.trail ds).reverse := by
  induction ds generalizing p with
  | nil => rfl
  | cons d ds ih =>
    have h : p.follow (d :: ds) = (p.step d).follow ds := rfl
    rw [h, Move.back_cons, trail_append, follow_back, ← List.cons_append, ih]
    simp [trail]

end Coord

namespace Maze

/-- A place inside the maze that is no wall. -/
def IsOpen (m : Maze) (p : Coord) : Prop := ∃ c, m.at? p = some c ∧ c ≠ .wall

/-- Moves that lead from `p` to `q` and neither into a wall nor off the board. -/
structure Walk (m : Maze) (p : Coord) (ds : List Move) (q : Coord) : Prop where
  opens : ∀ x ∈ p.trail ds, m.IsOpen x
  ends : p.follow ds = q

variable {m : Maze} {p q x : Coord} {ds es : List Move} {n k : Nat}

theorem IsOpen.holds (h : m.IsOpen p) : m.board.Holds p := by
  obtain ⟨c, hc, -⟩ := h
  exact Board.isSome_get?.1 (Option.isSome_iff_exists.2 ⟨c, hc⟩)

theorem isOpen_iff : m.IsOpen p ↔ (m.at? p).any (· ≠ .wall) = true := by
  unfold IsOpen
  cases m.at? p <;> simp

instance (m : Maze) (p : Coord) : Decidable (m.IsOpen p) := decidable_of_iff _ isOpen_iff.symm

theorem walk_nil_iff : m.Walk p [] q ↔ p = q :=
  ⟨fun h => h.ends, fun h => ⟨by simp [Coord.trail], h⟩⟩

/-- A walk can be cut where it makes its last moves. -/
theorem walk_append_iff : m.Walk p (ds ++ es) q ↔
    m.Walk p ds (p.follow ds) ∧ m.Walk (p.follow ds) es q := by
  constructor
  · rintro ⟨ho, he⟩
    rw [Coord.trail_append] at ho
    rw [Coord.follow_append] at he
    exact ⟨⟨fun x hx => ho x (List.mem_append_left _ hx), rfl⟩,
      ⟨fun x hx => ho x (List.mem_append_right _ hx), he⟩⟩
  · rintro ⟨h1, h2⟩
    refine ⟨fun x hx => ?_, by rw [Coord.follow_append]; exact h2.ends⟩
    rw [Coord.trail_append] at hx
    rcases List.mem_append.1 hx with hx | hx
    · exact h1.opens x hx
    · exact h2.opens x hx

theorem Walk.append (h : m.Walk p ds x) (h' : m.Walk x es q) : m.Walk p (ds ++ es) q := by
  obtain rfl := h.ends
  exact walk_append_iff.2 ⟨h, h'⟩

theorem walk_single_iff {d : Move} : m.Walk p [d] q ↔ p.step d = q ∧ m.IsOpen q := by
  constructor
  · rintro ⟨ho, rfl⟩
    exact ⟨rfl, ho _ (by simp [Coord.trail, Coord.follow])⟩
  · rintro ⟨rfl, ho⟩
    exact ⟨by simpa [Coord.trail] using ho, rfl⟩

theorem Walk.trail_append_single {d : Move} (h : m.Walk (p.follow ds) [d] q) :
    p.trail (ds ++ [d]) = p.trail ds ++ [q] := by
  rw [Coord.trail_append, ← h.ends]
  rfl

/-- A walk can be made backwards. -/
theorem Walk.back (h : m.Walk p ds q) (hp : m.IsOpen p) : m.Walk q (Move.back ds) p := by
  obtain rfl := h.ends
  refine ⟨fun x hx => ?_, Coord.follow_back⟩
  have hx' : x ∈ (p :: p.trail ds).reverse := Coord.cons_trail_back ▸ List.mem_cons_of_mem _ hx
  rcases List.mem_cons.1 (List.mem_reverse.1 hx') with rfl | hx'
  · exact hp
  · exact h.opens x hx'

/-- The gates among places. -/
def gatesOn (m : Maze) (xs : List Coord) : IdSet :=
  xs.foldl (fun s x => match m.at? x with | some (.gate g) => s.add g | _ => s) .empty

theorem gatesOn_append_single (m : Maze) (xs : List Coord) (x : Coord) : m.gatesOn (xs ++ [x]) =
    match m.at? x with | some (.gate g) => (m.gatesOn xs).add g | _ => m.gatesOn xs := by
  rw [gatesOn, List.foldl_append]
  rfl

theorem testBit_gatesOn {xs : List Coord} {i : Nat} : (m.gatesOn xs).mask.testBit i = true ↔
    ∃ x ∈ xs, ∃ g : Letter, m.at? x = some (.gate g) ∧ g.val = i := by
  induction xs using List.reverseRecOn with
  | nil => simp [gatesOn, IdSet.empty]
  | append_singleton xs y ih =>
    rw [gatesOn_append_single]
    simp only [List.mem_append, List.mem_singleton, or_and_right, exists_or, exists_eq_left]
    rw [← ih]
    split
    · next g hg => simp [hg, IdSet.testBit_add]
    · next hg =>
      have hno : ∀ g, m.at? y ≠ some (.gate g) := hg
      simp [hno]

/-- A walk between two places that are no gates enters the same gates backwards. -/
theorem gatesOn_back (hp : ∀ g, m.at? p ≠ some (.gate g))
    (hq : ∀ g, m.at? (p.follow ds) ≠ some (.gate g)) :
    m.gatesOn ((p.follow ds).trail (Move.back ds)) = m.gatesOn (p.trail ds) := by
  apply IdSet.ext_testBit
  intro i
  have hmem : ∀ x, x = p.follow ds ∨ x ∈ (p.follow ds).trail (Move.back ds) ↔
      x = p ∨ x ∈ p.trail ds := fun x => by
    rw [← List.mem_cons, Coord.cons_trail_back, List.mem_reverse, List.mem_cons]
  rw [Bool.eq_iff_iff, testBit_gatesOn, testBit_gatesOn]
  constructor
  · rintro ⟨x, hx, g, hg, hi⟩
    rcases (hmem x).1 (.inr hx) with rfl | hx
    · exact absurd hg (hp g)
    · exact ⟨x, hx, g, hg, hi⟩
  · rintro ⟨x, hx, g, hg, hi⟩
    rcases (hmem x).2 (.inr hx) with rfl | hx
    · exact absurd hg (hq g)
    · exact ⟨x, hx, g, hg, hi⟩

/-- Whether `n` moves lead from `p` to `q`. -/
def Reaches (m : Maze) (p : Coord) (n : Nat) (q : Coord) : Prop :=
  ∃ ds, m.Walk p ds q ∧ ds.length = n

/-- Whether `n` moves lead from `p` to `q` and fewer do not. -/
def Apart (m : Maze) (p : Coord) (n : Nat) (q : Coord) : Prop :=
  m.Reaches p n q ∧ ∀ k, m.Reaches p k q → n ≤ k

theorem reaches_zero_iff : m.Reaches p 0 q ↔ p = q := by
  constructor
  · rintro ⟨ds, h, hl⟩
    rw [List.length_eq_zero_iff] at hl
    subst hl
    exact walk_nil_iff.1 h
  · intro h; exact ⟨[], walk_nil_iff.2 h, rfl⟩

theorem reaches_succ_iff : m.Reaches p (n + 1) q ↔
    ∃ x d, m.Reaches p n x ∧ x.step d = q ∧ m.IsOpen q := by
  constructor
  · rintro ⟨ds, h, hl⟩
    cases ds using List.reverseRecOn with
    | nil => simp at hl
    | append_singleton es d =>
      obtain ⟨h1, h2⟩ := walk_append_iff.1 h
      exact ⟨_, d, ⟨es, h1, by simpa using hl⟩, walk_single_iff.1 h2⟩
  · rintro ⟨x, d, ⟨es, h, hl⟩, hq⟩
    exact ⟨es ++ [d], h.append (walk_single_iff.2 hq), by simp [hl]⟩

theorem Apart.unique (h : m.Apart p n q) (h' : m.Apart p k q) : n = k :=
  Nat.le_antisymm (h.2 k h'.1) (h'.2 n h.1)

/-- Places that some walk leads to are so and so many moves away. -/
theorem Reaches.exists_apart (h : m.Reaches p n q) : ∃ k, m.Apart p k q := by
  classical
  have hex : ∃ k, m.Reaches p k q := ⟨n, h⟩
  exact ⟨Nat.find hex, Nat.find_spec hex, fun k hk => Nat.find_min' hex hk⟩

/-- The place before the last move of a shortest walk is one move less away. -/
theorem Apart.exists_before (h : m.Apart p (n + 1) q) :
    ∃ x d, m.Apart p n x ∧ x.step d = q ∧ m.IsOpen q := by
  obtain ⟨x, d, hx, hq⟩ := reaches_succ_iff.1 h.1
  refine ⟨x, d, ⟨hx, fun k hk => ?_⟩, hq⟩
  have := h.2 (k + 1) (reaches_succ_iff.2 ⟨x, d, hk, hq⟩)
  omega

/-- **One move further away** are the neighbours that were not reached before. -/
theorem apart_succ_iff : m.Apart p (n + 1) q ↔
    (∃ x d, m.Apart p n x ∧ x.step d = q ∧ m.IsOpen q) ∧ ∀ k ≤ n, ¬ m.Reaches p k q := by
  constructor
  · intro h
    refine ⟨h.exists_before, fun k hk hr => ?_⟩
    have := h.2 k hr
    omega
  · rintro ⟨⟨x, d, hx, hq⟩, hnew⟩
    refine ⟨reaches_succ_iff.2 ⟨x, d, hx.1, hq⟩, fun k hk => ?_⟩
    rcases Nat.lt_or_ge n k with hlt | hle
    · exact hlt
    · exact absurd hk (hnew k hle)

/-- Before a place that is far away there are places that are less far away. -/
theorem Apart.exists_apart_of_le (h : m.Apart p n q) (hk : k ≤ n) : ∃ x, m.Apart p k x := by
  induction n generalizing q with
  | zero => obtain rfl : k = 0 := by omega
            exact ⟨q, h⟩
  | succ n ih =>
    rcases Nat.eq_or_lt_of_le hk with rfl | hlt
    · exact ⟨q, h⟩
    · obtain ⟨x, d, hx, -⟩ := h.exists_before
      exact ih hx (by omega)

end Maze

end GatedMaze
