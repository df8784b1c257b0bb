import GatedMaze.Proofs.Alike
import GatedMaze.Proofs.Collecting
import GatedMaze.Proofs.Ranks

/-!
# Four agents in a maze with one start

In a maze with one start a walk joins the start to every key that is fetched, so all keys of an accepted
order lie in one region. They have one quadrant and its agent fetches all of them, as a single agent
would.

* `fromStart_of_along`: the keys of an accepted order lie in the region of the start.
* `originIn_eq_last`: the agent of their quadrant sets out from the last key of the order.
* `walkAlike_of_one_start`: orders are accepted alike with and without quadrants.
* `four_agents_eq_one`: four agents have the plan of one agent.
-/

namespace GatedMaze

open Walker

variable {m : Maze} {t : LegTable} {s : Coord} {j k x a : Int} {o q : List Int} {w : Walker}
  {homes : Homes} {n : Int}

namespace Maze

/-- Whether a walk joins the start to a key. -/
def FromStart (m : Maze) (s : Coord) (k : Int) : Prop := ∃ p, m.landmark? p = some k ∧ m.Joined s p

theorem FromStart.sameRegion (hs : m.at? s = some .start) (hj : m.FromStart s j)
    (hk : m.FromStart s k) : m.SameRegion j k := by
  obtain ⟨p, hp, hsp⟩ := hj
  obtain ⟨q, hq, hsq⟩ := hk
  have hopen : m.IsOpen s := isOpen_of_landmark? (landmark?_of_start hs)
  exact ⟨p, q, hp, hq, (hsp.symm hopen).trans hsq⟩

section OneStart

variable (hs : ∀ p, m.at? p = some .start ↔ p = s)
include hs

/-- A leg from the start, or from a key that a walk joins to it, leads to such a key. -/
theorem fromStart_of_leg (ht : m.legs = .ok t) {leg : Leg} (ha : a = m.startId ∨ m.FromStart s a)
    (hleg : t.get a k = .ok (some leg)) : m.FromStart s k := by
  obtain ⟨-, p, q, hp, hq, ds, ⟨hw, -⟩, -⟩ := (legs_ok ht).1.sound a k leg hleg
  refine ⟨q, hq, ?_⟩
  rcases ha with rfl | ⟨p', hp', hj⟩
  · obtain rfl := (hs p).1 (landmark?_eq_start_iff.1 hp)
    exact ⟨ds, hw⟩
  · obtain rfl := landmark_unique_of_one_start hs hp hp'
    exact hj.trans ⟨ds, hw⟩

/-- **The keys of an accepted order lie in the region of the start.** -/
theorem fromStart_of_along (ht : m.legs = .ok t) {homes : Option Homes}
    (h : along t m.startId homes o = .ok w) : ∀ k ∈ o, m.FromStart s k := by
  induction o using List.reverseRecOn generalizing w with
  | nil => simp
  | append_singleton q j ih =>
    obtain ⟨v, hv, hj⟩ := along_append_ok.1 h
    obtain ⟨-, -, quadrant, leg, -, hleg, -, -⟩ := next_eq_ok_iff.1 hj
    intro k hk
    rcases List.mem_append.1 hk with hk | hk
    · exact ih hv k hk
    · obtain rfl := List.mem_singleton.1 hk
      exact fromStart_of_leg hs ht ((originIn_of_along hv quadrant).imp_right (ih hv _)) hleg

/-- **The agent of their quadrant** sets out from the last key of the order. -/
theorem originIn_eq_last (ht : m.legs = .ok t) (hh : assignQuadrants m.keyIds t n = .ok homes)
    (hw : along t m.startId (some homes) q = .ok w) (hq : ∀ j ∈ q, j ∈ m.keyIds)
    (hk : m.FromStart s k) (hx : homes.of? k = some x) :
    w.originIn m.startId (some x) = w.last := by
  have hall : ∀ j ∈ q, homes.of? j = some x := fun j hj =>
    (quadrant_eq_iff ht hh hx (hq j hj)).2
      (hk.sameRegion ((hs s).2 rfl) (fromStart_of_along hs ht hw j hj))
  rw [originIn, lastIn_eq hw, List.filter_eq_self.2 (by simpa using hall), last_of_along hw]

/-- **With one start, orders are accepted alike with and without quadrants.** -/
theorem walkAlike_of_one_start (ht : m.legs = .ok t)
    (hh : assignQuadrants m.keyIds t n = .ok homes) :
    WalkAlike t m.startId none (some homes) m.keyIds := by
  intro o ho
  induction o using List.reverseRecOn with
  | nil =>
    intro c
    exact Iff.rfl
  | append_singleton q k ih =>
    intro c
    have hq : ∀ j ∈ q, j ∈ m.keyIds := fun j hj => ho j (List.mem_append_left _ hj)
    have hk : k ∈ m.keyIds := ho k (List.mem_append_right _ (List.mem_singleton_self k))
    obtain ⟨x, hx, -⟩ := assignQuadrants_spec hh hk
    have hquad : quadrantOf (some homes) k = .ok (some x) := quadrantOf_some_iff.2 ⟨x, hx, rfl⟩
    have hmem : k ∈ q ++ [k] := List.mem_append_right _ (List.mem_singleton_self k)
    have horigin : ∀ {v v' : Walker}, along t m.startId none q = .ok v →
        along t m.startId (some homes) q = .ok v' → m.FromStart s k →
        v'.originIn m.startId (some x) = v.originIn m.startId none := by
      intro v v' hv hv' hfrom
      rw [originIn_eq_last hs ht hh hv' hq hfrom hx, originIn, last_of_along hv', last_of_along hv]
    constructor
    · rintro ⟨w, hw, rfl⟩
      obtain ⟨v, hv, hnext⟩ := along_append_ok.1 hw
      obtain ⟨v', hv', hc⟩ := (ih hq v.walked).1 ⟨v, hv, rfl⟩
      have hfrom := fromStart_of_along hs ht hw k hmem
      obtain ⟨w', hnext', hd⟩ := next_of_same_origin (held_eq_of_along hv hv') hquad
        (fun quadrant hnone => Except.ok.inj hnone ▸ horigin hv hv' hfrom) hnext
      exact ⟨w', along_append_ok.2 ⟨v', hv', hnext'⟩, by omega⟩
    · rintro ⟨w, hw, rfl⟩
      obtain ⟨v', hv', hnext⟩ := along_append_ok.1 hw
      obtain ⟨v, hv, hc⟩ := (ih hq v'.walked).2 ⟨v', hv', rfl⟩
      have hfrom := fromStart_of_along hs ht hw k hmem
      have hlone : quadrantOf none k = .ok none := rfl
      obtain ⟨w', hnext', hd⟩ := next_of_same_origin (held_eq_of_along hv' hv) hlone
        (fun quadrant hsome => by
          obtain rfl := Except.ok.inj (hquad.symm.trans hsome)
          exact (horigin hv hv' hfrom).symm) hnext
      exact ⟨w', along_append_ok.2 ⟨v, hv, hnext'⟩, by omega⟩

end OneStart

end Maze

open Maze

/-- **Four agents have the plan of one agent in a maze with one start**, unless keys are left over:
either no order collects all keys for both, or the plans have the same moves, the same order and the same
number of states. -/
theorem four_agents_eq_one {one four : Config} (hs : m.starts.length = 1) (hone : one.agents = 1)
    (hfour : four.agents = 4) (hone' : one.split = false) (hfour' : four.split = false)
    (hleft : ∀ t left, m.legs = .ok t →
      assignQuadrants m.keyIds t four.quadrants ≠ .error (.maze (.unassigned left four.quadrants))) :
    (∃ n, (m.solve one).outcome = .error (.impasse (.noOrder n)) ∧
        (m.solve four).outcome = .error (.impasse (.noOrder n))) ∨
      ∃ plan plan', (m.solve one).outcome = .ok plan ∧ (m.solve four).outcome = .ok plan' ∧
        plan.cost = plan'.cost ∧ plan.order = plan'.order ∧ plan.states = plan'.states := by
  obtain ⟨s, hstarts⟩ := List.length_eq_one_iff.1 hs
  have hstart := start_iff_of_starts hstarts
  obtain ⟨t, ht⟩ := exists_legs_of_starts hstarts
  obtain ⟨homes, hh⟩ : ∃ homes, assignQuadrants m.keyIds t four.quadrants = .ok homes := by
    obtain ⟨homes, -, heq⟩ := assignQuadrants_eq ht four.quadrants
    split at heq
    · exact ⟨homes, heq⟩
    · exact absurd heq (hleft t _ ht)
  have hserves : (Crew.perQuadrant homes four.quadrants).Serves m.keyIds :=
    serves_of_assignQuadrants hh
  have hcrew : (four.crew m.keyIds t).outcome = .ok (.perQuadrant homes four.quadrants) :=
    outcome_crew_many (by omega) hh
  rw [outcome_solve_one hone hone' hs ht,
    outcome_solve (prepare_eq (.inr hfour) hfour' hs) ht hcrew hserves]
  have halike : WalkAlike t m.startId (Crew.one).homes?
      (Crew.perQuadrant homes four.quadrants).homes? (m.keyIds.mergeSort fun a b => a ≤ b) :=
    fun o ho => walkAlike_of_one_start hstart ht hh o fun k hk => List.mem_mergeSort.1 (ho k hk)
  have hp : (Problem.ofKeys t m.keyIds m.startId .one one.progress).Fits := fits_of_legs ht trivial
  have hp' : (Problem.ofKeys t m.keyIds m.startId (.perQuadrant homes four.quadrants)
      four.progress).Fits := fits_of_legs ht hserves
  rcases solve_of_walkAlike halike hp hp' false with ⟨h1, h2⟩ | h
  · exact .inl ⟨_, h1, h2⟩
  · exact .inr h

theorem four_agents_eq_one_alley : ∃ m plan plan', Maze.ofText "b.A.@.a" = .ok m ∧
    m.starts.length = 1 ∧ (m.solve {}).outcome = .ok plan ∧
      (m.solve { agents := 4 }).outcome = .ok plan' ∧ plan.cost = 8 ∧ plan.order = [0, 1] ∧
      plan.cost = plan'.cost ∧ plan.order = plan'.order ∧ plan.states = plan'.states := by
  have h : (do
      let m ← Maze.ofText "b.A.@.a"
      let t ← m.legs
      let homes ← assignQuadrants m.keyIds t 4
      let plan ← (m.solve {}).outcome
      pure (m.starts.length, plan.cost, plan.order)) = .ok (1, 8, [0, 1]) := by cbv
  simp only [bind_ok_iff, pure_eq_ok, Except.ok.injEq, Prod.mk.injEq] at h
  obtain ⟨m, hm, t, ht, homes, hh, plan, hplan, hs, hcost, horder⟩ := h
  have hleft : ∀ t' left, m.legs = .ok t' → assignQuadrants m.keyIds t' 4 ≠
      .error (.maze (.unassigned left 4)) := by
    intro t' left ht' he
    obtain rfl := Except.ok.inj (ht.symm.trans ht')
    rw [hh] at he
    cases he
  rcases four_agents_eq_one hs (rfl : ({} : Config).agents = 1)
    (rfl : ({ agents := 4 } : Config).agents = 4) rfl rfl hleft with
    ⟨n, hnone, -⟩ | ⟨plan₁, plan', hplan₁, hplan', hsame⟩
  · rw [hplan] at hnone
    cases hnone
  · obtain rfl := Except.ok.inj (hplan.symm.trans hplan₁)
    exact ⟨m, plan, plan', hm, hs, hplan, hplan', hcost, horder, hsame⟩

end GatedMaze
