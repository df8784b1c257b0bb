import GatedMaze.Proofs.Plans
import Mathlib.Order.Bounds.Defs

/-!
# One agent

A single agent stands where it fetched its last key, so the keys it holds and the last one of them
say all about where it can go next. Hence nothing is lost when only one order of the same keys with
the same last key is kept.

* `memoryless_of_lone`: an agent by itself has no memory.
* `one_agent_least`: for one agent a planner finds the cheapest ordering of its keys, and it finds
  none exactly when no ordering can be walked.
-/

namespace GatedMaze

open Walker

variable {legs : LegTable} {start : Int} {keys : List Int}

/-- **An agent by itself has no memory.** -/
theorem memoryless_of_lone (legs : LegTable) (start : Int) : Memoryless legs start none := by
  refine memoryless_of_origin fun q q' w w' k quadrant hw hw' hl hquad => ?_
  cases hquad
  rw [originIn, originIn, last_of_along hw, last_of_along hw', hl]

/-- **For one agent a planner finds the cheapest ordering of its keys.** It finds none exactly when
no ordering can be walked. -/
theorem one_agent_least (progress keep : Bool) (hs : legs.Holds start)
    (hk : ∀ k ∈ keys, legs.Holds k ∧ k < IdSet.capacity) :
    let result :=
      ((Planner.ofProblem (.ofKeys legs keys start .one progress)).solve keep).2.outcome
    (result = .error (.impasse (.noOrder keys.length)) ↔ totals legs start none keys = ∅) ∧
      ((totals legs start none keys).Nonempty →
        ∃ plan, result = .ok plan ∧ IsLeast (totals legs start none keys) plan.cost) := by
  intro result
  have hspec : (∃ plan, result = .ok plan ∧ IsLeast (totals legs start none keys) plan.cost) ∨
      result = .error (.impasse (.noOrder keys.length)) ∧ totals legs start none keys = ∅ :=
    solve_ofKeys_least_of_memoryless hs hk (Crew.serves_one keys) progress keep (memoryless_of_lone legs start)
  clear_value result
  rcases hspec with ⟨plan, rfl, hmem, hleast⟩ | ⟨rfl, hempty⟩
  · refine ⟨⟨fun h => (by cases h), fun h => ?_⟩, fun _ => ⟨plan, rfl, hmem, hleast⟩⟩
    rw [h] at hmem
    exact hmem.elim
  · rw [hempty]
    exact ⟨⟨fun _ => rfl, fun _ => rfl⟩, fun h => (Set.not_nonempty_empty h).elim⟩

/-- Two keys; the way from the start to the first has the gate of the second. -/
def gatedPair : LegTable :=
  ⟨3, #[none, some ⟨1, ⟨0⟩⟩, none, some ⟨2, ⟨2⟩⟩, some ⟨3, ⟨0⟩⟩, none], rfl⟩

theorem one_agent_least_gatedPair : ∃ plan,
    ((Planner.ofProblem (.ofKeys gatedPair [1, 0] 2 .one true)).solve false).2.outcome = .ok plan ∧
      IsLeast (totals gatedPair 2 none [1, 0]) plan.cost :=
  (one_agent_least true false (by decide) (by decide)).2
    ⟨4, [1, 0], by simp [IsOrdering], ⟨4, [⟨1, 2, 3, [], none⟩, ⟨0, 1, 1, [], none⟩], [0, 1]⟩,
      by decide +kernel, rfl⟩

end GatedMaze
