import GatedMaze.Proofs.Solves
import Mathlib

/-!
# One agent for each quadrant

With several agents the places of the agents matter too, and a planner remembers only those of the
order that it kept. So it finds the cheapest kept ordering, which need not be the cheapest of all,
and it may find none although some ordering can be walked.

* `many_agents_least_iff`: what a planner finds, and exactly when this is the cheapest ordering;
  `ofQuadrants_least_iff`: also when it has to be seen to that there is room for the agents.
* `many_agents_least_of_same_quadrant`: when all keys have one quadrant nothing is lost.
-/

namespace GatedMaze

open Walker

variable {m : Maze} {t : LegTable} {homes : Homes} {start : Int} {keys : List Int}

/-- The last key of a quadrant is the last key of all, when all keys have one quadrant. -/
theorem lastIn_of_same_quadrant {o : List Int} {w : Walker} {k x : Int}
    (hsame : ∀ j k x y, homes.of? j = some x → homes.of? k = some y → x = y)
    (hk : homes.of? k = some x) (h : along t start (some homes) o = .ok w) :
    w.lastIn.of? x = o.getLast? := by
  have hall : ∀ j ∈ o, homes.of? j = some x := by
    intro j hj
    obtain ⟨quadrant, hquad⟩ := exists_quadrantOf_of_along h hj
    obtain ⟨y, hy, -⟩ := quadrantOf_some_iff.1 hquad
    rw [hy, hsame j k y x hy hk]
  rw [lastIn_eq h, List.filter_eq_self.2 (by simpa using hall)]

/-- **When all keys have one quadrant nothing is lost**: its agent has no memory. -/
theorem memoryless_of_same_quadrant
    (hsame : ∀ j k x y, homes.of? j = some x → homes.of? k = some y → x = y) :
    Memoryless t start (some homes) := by
  refine memoryless_of_origin fun q q' w w' k quadrant hw hw' hl hquad => ?_
  obtain ⟨x, hx, rfl⟩ := quadrantOf_some_iff.1 hquad
  rw [originIn, originIn, lastIn_of_same_quadrant hsame hx hw,
    lastIn_of_same_quadrant hsame hx hw', hl]

/-- **When all keys have one quadrant** a planner for several agents finds the cheapest ordering. -/
theorem many_agents_least_of_same_quadrant (progress keep : Bool) (ht : m.legs = .ok t)
    (hh : assignQuadrants m.keyIds t 4 = .ok homes)
    (hsame : ∀ j k x y, homes.of? j = some x → homes.of? k = some y → x = y) :
    let result := ((Planner.ofProblem
      (.ofKeys t m.keyIds m.startId (.perQuadrant homes 4) progress)).solve keep).2.outcome
    let all := totals t m.startId (some homes) m.keyIds
    (∃ plan, result = .ok plan ∧ IsLeast all plan.cost) ∨
      result = .error (.impasse (.noOrder m.keyIds.length)) ∧ all = ∅ := by
  have hserves : (Crew.perQuadrant homes 4).Serves m.keyIds := serves_of_assignQuadrants hh
  exact solve_ofKeys_least_of_memoryless (holds_startId ht) (holds_of_mem_keyIds ht) hserves progress
    keep (memoryless_of_same_quadrant hsame)

/-- **What a planner finds for a crew** is the cheapest kept ordering, and exactly when this is the cheapest
ordering of all. -/
theorem crew_least_iff {legs : LegTable} {crew : Crew} (progress keep : Bool) (hs : legs.Holds start)
    (hk : ∀ k ∈ keys, legs.Holds k ∧ k < IdSet.capacity) (hcrew : crew.Serves keys) :
    let result := ((Planner.ofProblem (.ofKeys legs keys start crew progress)).solve keep).2.outcome
    let all := totals legs start crew.homes? keys
    let kept := keptTotals legs start crew.homes? keys
    ((all.Nonempty → ∃ plan, result = .ok plan ∧ ∀ c ∈ all, plan.cost ≤ c) ∧
        (result = .error (.impasse (.noOrder keys.length)) → all = ∅) ↔
      ∀ c ∈ all, ∃ c' ∈ kept, c' ≤ c) ∧
    (kept.Nonempty → ∃ plan, result = .ok plan ∧ IsLeast kept plan.cost) ∧
    (kept = ∅ → result = .error (.impasse (.noOrder keys.length))) := by
  intro result all kept
  have hspec : (∃ plan, result = .ok plan ∧ IsLeast kept plan.cost) ∨
      result = .error (.impasse (.noOrder keys.length)) ∧ kept = ∅ :=
    solve_ofKeys_least hs hk hcrew progress keep
  clear_value result
  rcases hspec with ⟨plan, rfl, hmem, hleast⟩ | ⟨rfl, hnone⟩
  · refine ⟨⟨fun h c hc => ?_, fun h => ⟨fun _ => ⟨plan, rfl, fun c hc => ?_⟩, fun h => by cases h⟩⟩,
      fun _ => ⟨plan, rfl, hmem, hleast⟩, fun h => ?_⟩
    · obtain ⟨plan', he, hle⟩ := h.1 ⟨c, hc⟩
      obtain rfl := Except.ok.inj he
      exact ⟨plan.cost, hmem, hle c hc⟩
    · obtain ⟨c', hc', hle⟩ := h c hc
      exact Int.le_trans (hleast hc') hle
    · rw [h] at hmem
      exact hmem.elim
  · rw [hnone]
    refine ⟨⟨fun h c hc => ?_, fun h => ?_⟩, fun h => (Set.not_nonempty_empty h).elim, fun _ => rfl⟩
    · rw [h.2 rfl] at hc
      exact hc.elim
    · have hempty : all = ∅ := Set.eq_empty_iff_forall_notMem.2 fun c hc => by
        obtain ⟨c', hc', -⟩ := h c hc
        exact hc'
      exact ⟨fun hne => (Set.not_nonempty_empty (hempty ▸ hne)).elim, fun _ => hempty⟩

/-- **What a planner finds for several agents** is the cheapest kept ordering. This is the cheapest
ordering of all, found whenever some ordering can be walked, exactly when every ordering is matched
by a kept one that costs no more. -/
theorem many_agents_least_iff (progress keep : Bool) (ht : m.legs = .ok t)
    (hh : assignQuadrants m.keyIds t 4 = .ok homes) :
    let result := ((Planner.ofProblem
      (.ofKeys t m.keyIds m.startId (.perQuadrant homes 4) progress)).solve keep).2.outcome
    let all := totals t m.startId (some homes) m.keyIds
    let kept := keptTotals t m.startId (some homes) m.keyIds
    ((all.Nonempty → ∃ plan, result = .ok plan ∧ ∀ c ∈ all, plan.cost ≤ c) ∧
        (result = .error (.impasse (.noOrder m.keyIds.length)) → all = ∅) ↔
      ∀ c ∈ all, ∃ c' ∈ kept, c' ≤ c) ∧
    (kept.Nonempty → ∃ plan, result = .ok plan ∧ IsLeast kept plan.cost) ∧
    (kept = ∅ → result = .error (.impasse (.noOrder m.keyIds.length))) := by
  have hserves : (Crew.perQuadrant homes 4).Serves m.keyIds := serves_of_assignQuadrants hh
  exact crew_least_iff progress keep (holds_startId ht) (holds_of_mem_keyIds ht) hserves

theorem many_agents_least_iff_twoRooms : ∃ m t homes,
    Maze.ofText "dCa@.b\n######\n@ABc##" = .ok m ∧ m.legs = .ok t ∧
    assignQuadrants m.keyIds t 4 = .ok homes ∧
    ∃ plan, ((Planner.ofProblem (.ofKeys t m.keyIds m.startId
        (.perQuadrant homes 4) true)).solve false).2.outcome = .ok plan ∧ plan.cost = 12 ∧
      IsLeast (keptTotals t m.startId (some homes) m.keyIds) plan.cost := by
  have h : (do
      let m ← Maze.ofText "dCa@.b\n######\n@ABc##"
      let t ← m.legs
      let homes ← assignQuadrants m.keyIds t 4
      let plan ← ((Planner.ofProblem (.ofKeys t m.keyIds m.startId
        (.perQuadrant homes 4) true)).solve false).2.outcome
      pure plan.cost) = .ok 12 := by cbv
  simp only [bind_ok_iff, pure_eq_ok, Except.ok.injEq] at h
  obtain ⟨m, hm, t, ht, homes, hh, plan, hplan, hcost⟩ := h
  obtain ⟨-, hsome, hnone⟩ := many_agents_least_iff true false ht hh
  obtain ⟨plan', hplan', hleast⟩ := hsome <| Set.nonempty_iff_ne_empty.2 fun he => by
    rw [hnone he] at hplan
    cases hplan
  obtain rfl := Except.ok.inj (hplan.symm.trans hplan')
  exact ⟨m, t, homes, hm, ht, hh, plan, hplan, hcost, hleast⟩

/-- **What is found for so many agents**, when there is room for them. -/
theorem ofQuadrants_least_iff {n : Int} (progress keep : Bool) (ht : m.legs = .ok t)
    (hroom : -0x8000000000000000 ≤ n ∧ n < roomLimit)
    (hh : assignQuadrants m.keyIds t n = .ok homes) :
    let result := ((Planner.ofProblem
      (.ofKeys t m.keyIds m.startId (.ofQuadrants homes n) progress)).solve keep).2.outcome
    let all := totals t m.startId (some homes) m.keyIds
    let kept := keptTotals t m.startId (some homes) m.keyIds
    ((all.Nonempty → ∃ plan, result = .ok plan ∧ ∀ c ∈ all, plan.cost ≤ c) ∧
        (result = .error (.impasse (.noOrder m.keyIds.length)) → all = ∅) ↔
      ∀ c ∈ all, ∃ c' ∈ kept, c' ≤ c) ∧
    (kept.Nonempty → ∃ plan, result = .ok plan ∧ IsLeast kept plan.cost) ∧
    (kept = ∅ → result = .error (.impasse (.noOrder m.keyIds.length))) := by
  have hserves : (Crew.ofQuadrants homes n).Serves m.keyIds :=
    Crew.serves_ofQuadrants_iff.2 ⟨hroom, serves_of_assignQuadrants hh⟩
  have hspec := crew_least_iff progress keep (holds_startId ht) (holds_of_mem_keyIds ht) hserves
  rw [Crew.homes?_ofQuadrants] at hspec
  exact hspec

/-- **Several agents may walk further than they need to.** In one of two rooms `a` and `b` lie on both
sides of the start and `d` behind gate `C` next to `a`; in the other `c` lies behind gates `A` and
`B`. The keys can be fetched with ten moves in the order `b`, `a`, `c`, `d`, but once `a` and `b` are
held and `b` was fetched last only the order `a`, `b` is kept, and the plan makes twelve. With a
second way to `d` no kept order of all keys is left, although they can be fetched in that order. -/
theorem many_agents_not_least :
    (∃ m t homes plan r, Maze.ofText "dCa@.b\n######\n@ABc##" = .ok m ∧ m.legs = .ok t ∧
      assignQuadrants m.keyIds t 4 = .ok homes ∧
      ((Planner.ofProblem (.ofKeys t m.keyIds m.startId
        (.perQuadrant homes 4) true)).solve false).2.outcome = .ok plan ∧
      (replay t m.startId [1, 0, 2, 3] (some homes)).outcome = .ok r ∧
      IsOrdering m.keyIds [1, 0, 2, 3] ∧ r.cost = 10 ∧ plan.cost = 12) ∧
    ∃ m t homes r, Maze.ofText "a@.b\nC##D\n.d..\n####\n@ABc" = .ok m ∧ m.legs = .ok t ∧
      assignQuadrants m.keyIds t 4 = .ok homes ∧
      ((Planner.ofProblem (.ofKeys t m.keyIds m.startId
        (.perQuadrant homes 4) true)).solve false).2.outcome = .error (.impasse (.noOrder 4)) ∧
      (replay t m.startId [1, 0, 2, 3] (some homes)).outcome = .ok r ∧
      IsOrdering m.keyIds [1, 0, 2, 3] := by
  have hord : IsOrdering [0, 1, 2, 3] [1, 0, 2, 3] :=
    IsOrdering.of_perm ⟨by decide, fun _ => Iff.rfl⟩ (by decide)
  constructor
  · have h : (do
        let m ← Maze.ofText "dCa@.b\n######\n@ABc##"
        let t ← m.legs
        let homes ← assignQuadrants m.keyIds t 4
        let plan ← ((Planner.ofProblem (.ofKeys t m.keyIds m.startId
          (.perQuadrant homes 4) true)).solve false).2.outcome
        let r ← (replay t m.startId [1, 0, 2, 3] (some homes)).outcome
        pure (m.keyIds, plan.cost, r.cost)) = .ok ([0, 1, 2, 3], 12, 10) := by cbv
    simp only [bind_ok_iff, pure_eq_ok, Except.ok.injEq, Prod.mk.injEq] at h
    obtain ⟨m, hm, t, ht, homes, hh, plan, hplan, r, hr, hkeys, hcost, hcost'⟩ := h
    exact ⟨m, t, homes, plan, r, hm, ht, hh, hplan, hr, hkeys ▸ hord, hcost', hcost⟩
  · have h : (do
        let m ← Maze.ofText "a@.b\nC##D\n.d..\n####\n@ABc"
        let t ← m.legs
        let homes ← assignQuadrants m.keyIds t 4
        let r ← (replay t m.startId [1, 0, 2, 3] (some homes)).outcome
        pure (m.keyIds, ((Planner.ofProblem (.ofKeys t m.keyIds m.startId
          (.perQuadrant homes 4) true)).solve false).2.outcome.map Plan.cost, r.cost)) =
        .ok ([0, 1, 2, 3], .error (.impasse (.noOrder 4)), 11) := by cbv
    simp only [bind_ok_iff, pure_eq_ok, Except.ok.injEq, Prod.mk.injEq] at h
    obtain ⟨m, hm, t, ht, homes, hh, r, hr, hkeys, hnone, -⟩ := h
    exact ⟨m, t, homes, r, hm, ht, hh, map_error_iff.1 hnone, hr, hkeys ▸ hord⟩

end GatedMaze
