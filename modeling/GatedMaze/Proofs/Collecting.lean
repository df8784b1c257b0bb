import GatedMaze.Proofs.FirstVisits
import GatedMaze.Proofs.Solves
import Mathlib

/-!
# Plans and walks that collect all keys

A table has one leg for each pair of landmarks, with the gates on one shortest walk. A walk may get
past these gates by a detour, so a plan is no longer than a walk that collects all keys only if the
legs of its first visits can be walked too. Where gates cannot be avoided they always can.

* `solve_one_le_iff`: a plan for one agent makes at most so many moves when some ordering does.
* `one_agent_le_walk`: a plan is no longer than a walk whose order of first visits is accepted.
-/

namespace GatedMaze

open Walker

variable {m : Maze} {t : LegTable} {cfg : Config} {s : Coord} {ds : List Move}

namespace Maze

/-- A walk from `s` that keeps to the gates and comes to every key. -/
structure Collects (m : Maze) (s : Coord) (ds : List Move) : Prop where
  admits : m.Admits [s] (s.trail ds)
  comes : ∀ k ∈ m.keys, k.2 ∈ s :: s.trail ds

theorem Collects.isOrdering (h : m.Collects s ds) :
    IsOrdering m.keyIds (m.firstVisits (s :: s.trail ds)) :=
  isOrdering_firstVisits fun k x hk => h.comes (k, x) (mem_keys.2 hk)

theorem Collects.walk (h : m.Collects s ds) : m.Walk s ds (s.follow ds) :=
  ⟨fun _ hx => h.admits.isOpen hx, rfl⟩

theorem start_iff_of_starts (hs : m.starts = [s]) (p : Coord) : m.at? p = some .start ↔ p = s := by
  rw [← mem_starts, hs, List.mem_singleton]

/-- A maze with one start has a table. -/
theorem exists_legs_of_starts (hs : m.starts = [s]) : ∃ t, m.legs = .ok t := by
  have hstart := start_iff_of_starts hs
  exact exists_legs fun p q hp hq => ((hstart p).1 hp).trans ((hstart q).1 hq).symm

/-- The accepted orders of first visits of walks that collect all keys cost no more than these. -/
theorem Collects.exists_total_le (hs : m.starts = [s]) (ht : m.legs = .ok t) (h : m.Collects s ds)
    {w : Walker} (hw : along t m.startId none (m.firstVisits (s :: s.trail ds)) = .ok w) :
    ∃ c ∈ totals t m.startId none m.keyIds, c ≤ ds.length := by
  obtain ⟨p, es, -, -, hle, -⟩ :=
    exists_since_first_visit (start_iff_of_starts hs) ht h.walk hw
  exact ⟨w.walked, mem_totals.2 ⟨_, w, h.isOrdering, hw, rfl⟩, by omega⟩

end Maze

open Maze

/-- **A plan for one agent makes at most so many moves** when some ordering of the keys does. -/
theorem solve_one_le_iff (hone : cfg.agents = 1) (hsplit : cfg.split = false)
    (hs : m.starts.length = 1) (ht : m.legs = .ok t) (n : Int) :
    (∃ plan, (m.solve cfg).outcome = .ok plan ∧ plan.cost ≤ n) ↔
      ∃ c ∈ totals t m.startId none m.keyIds, c ≤ n := by
  have hp : (Problem.ofKeys t m.keyIds m.startId .one cfg.progress).Fits := fits_of_legs ht trivial
  rw [outcome_solve_one hone hsplit hs ht, ← totals_mergeSort fun a b => a ≤ b]
  rcases Problem.solve_least_of_memoryless hp false (memoryless_of_lone t m.startId) with
    ⟨plan, hr, hmem, hleast⟩ | ⟨hr, hnone⟩
  · rw [hr]
    constructor
    · rintro ⟨plan', he, hle⟩
      obtain rfl := Except.ok.inj he
      exact ⟨plan.cost, hmem, hle⟩
    · rintro ⟨c, hc, hle⟩
      exact ⟨plan, rfl, (hleast hc).trans hle⟩
  · rw [hr]
    constructor
    · rintro ⟨plan, he, -⟩
      cases he
    · rintro ⟨c, hc, -⟩
      exact (hnone ▸ hc : c ∈ (∅ : Set Int)).elim

/-- **A plan for one agent is no longer than a walk that collects all keys**, if the order in which
the walk first comes to them is accepted. Where gates cannot be avoided it always is. -/
theorem one_agent_le_walk (hone : cfg.agents = 1) (hsplit : cfg.split = false)
    (hs : m.starts = [s]) : ∃ t, m.legs = .ok t ∧
      (∀ n : Int, (∃ plan, (m.solve cfg).outcome = .ok plan ∧ plan.cost ≤ n) ↔
        ∃ c ∈ totals t m.startId none m.keyIds, c ≤ n) ∧
      (∀ ds, m.Collects s ds →
        (∃ r, (replay t m.startId (m.firstVisits (s :: s.trail ds)) none).outcome = .ok r) →
        ∃ plan, (m.solve cfg).outcome = .ok plan ∧ plan.cost ≤ ds.length) ∧
      (m.Unavoidable t → ∀ ds, m.Collects s ds →
        ∃ plan, (m.solve cfg).outcome = .ok plan ∧ plan.cost ≤ ds.length) := by
  have hstart := start_iff_of_starts hs
  have hlen : m.starts.length = 1 := by rw [hs]; rfl
  obtain ⟨t, ht⟩ := exists_legs_of_starts hs
  have hiff := solve_one_le_iff hone hsplit hlen ht
  refine ⟨t, ht, hiff, fun ds hc hr => ?_, fun hu ds hc => ?_⟩
  · obtain ⟨r, hr⟩ := hr
    obtain ⟨w, hw, -⟩ := replay_ok_iff.1 ⟨r, hr, rfl⟩
    exact (hiff _).2 (hc.exists_total_le hs ht hw)
  · obtain ⟨w, hw⟩ := exists_along_firstVisits hstart ht hu hc.walk hc.admits
    exact (hiff _).2 (hc.exists_total_le hs ht hw)

/-- A corridor in which `b` lies behind gate `A`. -/
def corridor : Maze where
  board :=
    { rows := 1
      cols := 7
      cells := #[.key 1, .floor, .gate 0, .floor, .start, .floor, .key 0]
      size_cells := rfl }
  keys_nodup := by decide

theorem one_agent_le_walk_corridor : Maze.ofText "b.A.@.a" = .ok corridor ∧
    ∃ plan, (corridor.solve {}).outcome = .ok plan ∧ plan.cost ≤ 8 ∧ plan.cost = 8 := by
  have hs : corridor.starts = [⟨0, 4⟩] := by cbv
  have hkeys : corridor.keys = [(0, ⟨0, 6⟩), (1, ⟨0, 0⟩)] := by cbv
  have hc : corridor.Collects ⟨0, 4⟩ [.right, .right, .left, .left, .left, .left, .left, .left] :=
    ⟨by decide +kernel, by rw [hkeys]; decide⟩
  have hr : (do
      let t ← corridor.legs
      let r ← (replay t corridor.startId [0, 1] none).outcome
      pure r.cost) = .ok 8 := by cbv
  simp only [bind_ok_iff] at hr
  obtain ⟨t, ht, r, hr, -⟩ := hr
  obtain ⟨t', ht', -, hle, -⟩ := one_agent_le_walk (rfl : ({} : Config).agents = 1) rfl hs
  rw [ht, Except.ok.injEq] at ht'
  subst ht'
  obtain ⟨plan, hplan, hcost⟩ := hle _ hc ⟨r, hr⟩
  have h : (corridor.solve {}).outcome.map Plan.cost = .ok 8 := by cbv
  rw [hplan] at h
  exact ⟨by cbv, plan, hplan, hcost, Except.ok.inj h⟩

/-- A key behind its own gate, with a detour around it. -/
def detour : Maze where
  board :=
    { rows := 2
      cols := 3
      cells := #[.start, .gate 0, .key 0, .floor, .floor, .floor]
      size_cells := rfl }
  keys_nodup := by decide

/-- **A detour around a gate is not found**: four moves collect the key, but the leg to it is the
shorter way through its gate. -/
theorem detour_not_found : Maze.ofText "@Aa\n..." = .ok detour ∧ detour.starts = [⟨0, 0⟩] ∧
    detour.Collects ⟨0, 0⟩ [.down, .right, .right, .up] ∧
    (detour.solve {}).outcome = .error (.impasse (.noOrder 1)) := by
  have hkeys : detour.keys = [(0, ⟨0, 2⟩)] := by cbv
  exact ⟨by cbv, by cbv, ⟨by decide +kernel, by rw [hkeys]; decide⟩, by cbv⟩

end GatedMaze
