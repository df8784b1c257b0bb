import GatedMaze.Proofs.Recall
import Mathlib

/-!
# Which of several cheapest orders is planned

A planner compares by cost, and among equals by the key before the last one. These choices are made in
each state by itself, yet together they amount to one order on whole orders of keys: they are compared from
the last key back to the first.

* `Kept.preferred`: without memory a kept order is preferred to every other one of its keys that ends with
  the same key and costs no more.
* `one_agent_order_preferred`: the order that is planned for one agent is the preferred one of all cheapest
  orderings of the keys.
-/

namespace GatedMaze

open Walker

variable {legs : LegTable} {start : Int} {homes : Option Homes} {keys o o' q q' : List Int}
  {w w' : Walker} {plan : Plan} {k k' : Int}

/-- Whether an order comes before another one, key by key, when both are read from the last key back to the
first. -/
def PreferredTo (o o' : List Int) : Prop := List.Lex (· < ·) o.reverse o'.reverse

theorem preferredTo_of_lt (h : k < k') : PreferredTo (q ++ [k]) (q' ++ [k']) := by
  unfold PreferredTo
  rw [List.reverse_append, List.reverse_append]
  exact .rel h

theorem PreferredTo.append (h : PreferredTo q q') (k : Int) : PreferredTo (q ++ [k]) (q' ++ [k]) := by
  unfold PreferredTo at *
  rw [List.reverse_append, List.reverse_append]
  exact .cons h

/-- Of two rearrangements of each other the one with the smaller last key is preferred. -/
theorem preferredTo_of_getLast {d : Int} (hp : o'.Perm o) (hl : o.getLast?.getD d ≤ o'.getLast?.getD d)
    (h : o'.getLast? = o.getLast? → o' = o ∨ PreferredTo o o') : o' = o ∨ PreferredTo o o' := by
  rcases List.eq_nil_or_concat' o with rfl | ⟨q, k, rfl⟩
  · exact .inl (List.perm_nil.1 hp)
  · have hne : o' ≠ [] := by
      rintro rfl
      simp at hp
    obtain ⟨q', k', rfl⟩ := (List.eq_nil_or_concat' o').resolve_left hne
    simp only [List.getLast?_concat, Option.getD_some] at hl
    rcases Int.lt_or_eq_of_le hl with hlt | rfl
    · exact .inr (preferredTo_of_lt hlt)
    · exact h (by simp)

/-- **A kept order is preferred to every other one that costs no more**, if both end with the same key and
walkers have no memory. -/
theorem Kept.preferred (hm : Memoryless legs start homes) (hk : Kept legs start homes o)
    (hw : along legs start homes o = .ok w) (hw' : along legs start homes o' = .ok w') (hp : o'.Perm o)
    (hl : o'.getLast? = o.getLast?) (hle : w'.walked ≤ w.walked) : o' = o ∨ PreferredTo o o' := by
  induction o using List.reverseRecOn generalizing o' w w' with
  | nil => exact .inl (List.perm_nil.1 hp)
  | append_singleton q k ih =>
    obtain ⟨q', rfl⟩ : ∃ q', o' = q' ++ [k] := by
      rw [List.getLast?_concat] at hl
      exact List.getLast?_eq_some_iff.1 hl
    have hqq : q'.Perm q := (List.perm_append_right_iff [k]).1 hp
    obtain ⟨hq, _, hw₀, hmin⟩ := kept_append_iff.1 hk
    obtain rfl := Except.ok.inj (hw.symm.trans hw₀)
    obtain ⟨v, hv, hnext⟩ := along_append_ok.1 hw
    obtain ⟨v', hv', hnext'⟩ := along_append_ok.1 hw'
    -- the front of the other order is matched by a kept one, so it does not end with a smaller key
    obtain ⟨r, u, hr, hlast, hkept, hu, hru⟩ := exists_kept_le hm hv'
    obtain ⟨u', hu', hd⟩ := hm q' r v' u k w' hv' hu hr hlast hnext'
    have hfrom := hmin r u' hkept (hr.trans hqq) (along_append_ok.2 ⟨u, hu, hu'⟩)
    rw [hlast] at hfrom
    have hfront : q' = q ∨ PreferredTo q q' := by
      refine preferredTo_of_getLast (d := start) hqq (by omega) fun hsame => ?_
      -- the last legs are as long as each other, and so are the fronts
      obtain ⟨x, hx, hdx⟩ := hm q q' v v' k w hv hv' hqq hsame hnext
      obtain rfl := Except.ok.inj (hnext'.symm.trans hx)
      exact ih hq hv hv' hqq hsame (by omega)
    rcases hfront with rfl | hfront
    · exact .inl rfl
    · exact .inr (hfront.append k)

/-- Without memory the order of a plan is preferred to all other orderings at its cost. -/
theorem Problem.Answers.preferred {p : Problem} (h : p.Answers (.ok plan))
    (hm : Memoryless p.legs p.start p.crew.homes?) : IsOrdering p.keys plan.order ∧
      (∃ w, p.along plan.order = .ok w ∧ w.walked = plan.cost) ∧
      ∀ o w, IsOrdering p.keys o → p.along o = .ok w → w.walked = plan.cost →
        o = plan.order ∨ PreferredTo plan.order o := by
  cases h with
  | plan plan w ordering kept along cost homes least =>
    refine ⟨ordering, ⟨w, along, cost.symm⟩, fun o v hord hv hcost => ?_⟩
    have hp : o.Perm plan.order :=
      (List.perm_ext_iff_of_nodup hord.1 ordering.1).2 fun k => (hord.2 k).trans (ordering.2 k).symm
    obtain ⟨r, u, hr, hlast, hkept, hu, hru⟩ := exists_kept_le hm hv
    have hfrom := least r u (hord.of_perm hr) hkept hu
    rw [hlast] at hfrom
    exact preferredTo_of_getLast (d := p.start) hp (by omega) fun hsame =>
      GatedMaze.Kept.preferred hm kept along hv hp hsame (by omega)

/-- **The order that is planned for one agent.** Of all orderings of the keys that can be walked at the cost
of the plan it is the least when they are read from the last key back to the first. -/
theorem one_agent_order_preferred (progress keep : Bool)
    (h : ((Planner.ofProblem (.ofKeys legs keys start .one progress)).solve keep).2.outcome = .ok plan) :
    let cheapest := {o | IsOrdering keys o ∧
      ∃ r, (replay legs start o none).outcome = .ok r ∧ r.cost = plan.cost}
    plan.order ∈ cheapest ∧ ∀ o ∈ cheapest, o = plan.order ∨ PreferredTo plan.order o := by
  intro cheapest
  set p := Problem.ofKeys legs keys start .one progress with hp
  have hmem : ∀ o, o ∈ cheapest ↔
      IsOrdering p.keys o ∧ ∃ w, p.along o = .ok w ∧ w.walked = plan.cost := by
    intro o
    simp only [cheapest, Set.mem_ofPred_eq, replay_ok_iff, IsOrdering, hp, Problem.ofKeys,
      List.mem_mergeSort, Problem.along, Crew.homes?]
  simp only [hmem]
  by_cases hne : p.keys = []
  · -- without keys the only ordering is the empty one
    have hplan : Planner.planOf (Planner.ofProblem p) 0 [] 0 = plan := by
      simpa [Planner.solve, Planner.ofProblem, hne] using h
    subst hplan
    have hnil : IsOrdering p.keys [] := by
      rw [hne]
      exact ⟨List.nodup_nil, fun k => Iff.rfl⟩
    refine ⟨⟨hnil, atStart start, rfl, rfl⟩, fun o ho => .inl ?_⟩
    rw [hne] at ho
    exact List.eq_nil_iff_forall_not_mem.2 fun k hk => by simpa using (ho.1.2 k).1 hk
  · have hfits := Problem.fits_of_plan (by rintro homes n hc; cases hc) hne h
    have hanswers := Problem.solve_spec hfits keep
    rw [h] at hanswers
    obtain ⟨hord, hcost, hleast⟩ := hanswers.preferred (memoryless_of_lone legs start)
    exact ⟨⟨hord, hcost⟩, fun o ho => by
      obtain ⟨w, hw, hcost⟩ := ho.2
      exact hleast o w ho.1 hw hcost⟩

/-- Three keys, each one move from the start and from the others. -/
def trefoil : LegTable := PairTable.replicate 4 (some ⟨1, .empty⟩)

theorem one_agent_order_preferred_trefoil : ∃ plan,
    ((Planner.ofProblem (.ofKeys trefoil [0, 1, 2] 3 .one true)).solve false).2.outcome = .ok plan ∧
      plan.order = [2, 1, 0] ∧ PreferredTo plan.order [0, 1, 2] := by
  have h : ((Planner.ofProblem (.ofKeys trefoil [0, 1, 2] 3 .one true)).solve false).2.outcome.map
      (fun plan => (plan.order, plan.cost)) = .ok ([2, 1, 0], 3) := by cbv
  obtain ⟨plan, hplan, hanswer⟩ := map_ok_iff.1 h
  obtain ⟨horder, hcost⟩ := Prod.mk.injEq .. ▸ hanswer
  have hother : (replay trefoil 3 [0, 1, 2] none).outcome.map Replay.cost = .ok 3 := by decide +kernel
  obtain ⟨r, hr, hcost'⟩ := map_ok_iff.1 hother
  refine ⟨plan, hplan, horder, ?_⟩
  refine ((one_agent_order_preferred true false hplan).2 [0, 1, 2]
    ⟨⟨by decide, fun k => Iff.rfl⟩, r, hr, hcost'.trans hcost.symm⟩).resolve_left ?_
  rw [horder]
  decide

end GatedMaze
