import GatedMaze.Proofs.OneAgent
import GatedMaze.Proofs.OwnTables
import Mathlib

/-!
# Quadrants one after the other

The quadrants of some keys are layered when the gates on the legs of a quadrant open with its own keys or
with keys of lower quadrants. Then the quadrants can be emptied one after the other, the lowest first, and
what a planner remembers is enough for that: while one quadrant is emptied only its agent moves, and the
agents of the quadrants to come are still at the start.

* `next_of_own`: a key that can be fetched in the table of its quadrant can be fetched once all lower
  quadrants are empty.
* `exists_kept_of_block`, `exists_kept_of_layers`: kept orders that empty one more quadrant, and all.
* `isLeast_keptTotals`: the cheapest kept ordering costs what the quadrants cost together.
* `many_agents_eq_sum`: several agents need as many moves as one agent needs in each quadrant by itself;
  `ofQuadrants_eq_sum`: also when it has to be seen to that there is room for the agents.
-/

namespace GatedMaze

open Walker Homes

/-- A rank of the quadrants that goes down with the gates: a gate on a leg to a key from the start or from
another key of its quadrant opens with a key of this quadrant or of one with a smaller rank, if it opens
with a key at all. -/
def Layered (legs : LegTable) (start : Int) (homes : Homes) (keys : List Int) (rank : Int → Nat) : Prop :=
  ∀ x, ∀ k ∈ homes.keysIn keys x, ∀ origin,
    origin = start ∨ origin ∈ homes.keysIn keys x ∧ origin ≠ k →
      ∀ leg, legs.get origin k = .ok (some leg) →
        ∀ y, y ≠ x → ∀ g ∈ homes.keysIn keys y, g ∈ leg.gates.toList → rank y < rank x

variable {legs : LegTable} {start : Int} {homes : Homes} {keys a b o : List Int} {k x : Int}
  {rank : Int → Nat} {u v w v' : Walker}

/-- What walks of all keys cost is what walks in the quadrants cost together. -/
theorem exists_own_totals (hrange : IdSet.InRange keys) {c : Int}
    (hc : c ∈ totals legs start (some homes) keys) : ∃ own : Int → Int,
      (∀ x, own x ∈ totals (homes.ownTable legs keys x) start none (homes.keysIn keys x)) ∧
        c = ∑ x ∈ homes.inUse keys, own x := by
  obtain ⟨o, w, hord, hw, rfl⟩ := mem_totals.1 hc
  obtain ⟨v, hv, hsum⟩ := exists_own_walkers hrange (fun j hj => (hord.2 j).1 hj) hw
  refine ⟨fun x => (v x).walked, fun x => ?_, hsum⟩
  exact mem_totals.2 ⟨_, v x, isOrdering_keysIn hord x, hv x, rfl⟩

section Layers

variable (hl : Layered legs start homes keys rank) (hrange : IdSet.InRange keys)
  (htotal : ∀ k ∈ keys, ∃ x, homes.of? k = some x)

include hl hrange htotal

/-- **A key that can be fetched in the table of its quadrant** can be fetched with all keys about, when
those of lower quadrants are held and the agent of the quadrant has done the same. -/
theorem next_of_own (hlower : ∀ y, rank y < rank x → ∀ g ∈ homes.keysIn keys y, g ∈ o)
    (hb : ∀ j ∈ b, j ∈ homes.keysIn keys x ∧ j ∈ o) (hk : k ∈ homes.keysIn keys x) (hnew : k ∉ o)
    (hw : along legs start (some homes) o = .ok w)
    (hv : along (homes.ownTable legs keys x) start none b = .ok v)
    (hlast : w.lastIn.of? x = b.getLast?)
    (hnext : next (homes.ownTable legs keys x) start none v k = .ok v') : ∃ d,
      v'.walked = v.walked + d ∧ next legs start (some homes) w k = .ok (w.fetched (some x) k d) := by
  obtain ⟨-, hr, quadrant, leg', hquad, hleg', hopen, rfl⟩ := next_eq_ok_iff.1 hnext
  cases hquad
  obtain ⟨leg, hleg, rfl⟩ := get_own.1 hleg'
  have horigin : w.originIn start (some x) = v.originIn start none := by
    show (w.lastIn.of? x).getD start = v.last
    rw [hlast, last_of_along hv]
  refine ⟨leg.distance, rfl, next_eq_ok_iff.2 ⟨?_, hr, some x, leg,
    quadrantOf_some_iff.2 ⟨x, (mem_keysIn.1 hk).2, rfl⟩, horigin ▸ hleg, ?_, rfl⟩⟩
  · rw [← Bool.not_eq_true, contains_held hw]
    exact hnew
  · rw [IdSet.subset_iff] at hopen ⊢
    intro i hi
    refine IdSet.mem_toNats.2 ((testBit_held hw i).2 ?_)
    by_cases hoff : (i : Int) ∈ homes.keysOff keys x
    · -- the gate of another quadrant, which is a lower one
      obtain ⟨hmem, hne⟩ := mem_keysOff.1 hoff
      obtain ⟨y, hy⟩ := htotal _ hmem
      have hg : (i : Int) ∈ homes.keysIn keys y := mem_keysIn.2 ⟨hmem, hy⟩
      have hyx : y ≠ x := fun e => hne (e ▸ hy)
      have hgate : (i : Int) ∈ leg.gates.toList := by
        rw [IdSet.mem_toList]
        exact ⟨Int.natCast_nonneg i, by simpa using hi⟩
      refine hlower y (hl x k hk _ ?_ leg hleg y hyx _ hg hgate) _ hg
      rcases originIn_of_along hv none with hs | hm
      · exact .inl hs
      · exact .inr ⟨(hb _ hm).1, fun e => hnew (e ▸ (hb _ hm).2)⟩
    · have hgate := (testBit_own hrange leg.gates i).2 ⟨IdSet.mem_toNats.1 hi, hoff⟩
      have hheld := hopen i (IdSet.mem_toNats.2 hgate)
      exact (hb _ ((testBit_held hv i).1 (IdSet.mem_toNats.1 hheld))).2

/-- **One more quadrant.** A kept order without keys of the quadrant goes on to a kept order with all keys
of an order that is accepted in the quadrant's table, for no more moves. -/
theorem exists_kept_of_block
    (hlower : ∀ y, rank y < rank x → ∀ g ∈ homes.keysIn keys y, g ∈ a)
    (hnew : ∀ j ∈ a, homes.of? j ≠ some x) (hkept : Kept legs start (some homes) a)
    (hu : along legs start (some homes) a = .ok u) (hb : ∀ j ∈ b, j ∈ homes.keysIn keys x)
    (hv : along (homes.ownTable legs keys x) start none b = .ok v) : ∃ o w, o.Perm (a ++ b) ∧
      Kept legs start (some homes) o ∧ along legs start (some homes) o = .ok w ∧
      w.lastIn.of? x = b.getLast? ∧ w.walked ≤ u.walked + v.walked := by
  -- whichever order is kept, the agent of the quadrant stands where it does in the quadrant's own table
  induction b using List.reverseRecOn generalizing v with
  | nil =>
    obtain rfl := along_nil_ok.1 hv
    refine ⟨a, u, by simp, hkept, hu, ?_, by simp [atStart]⟩
    rw [lastIn_eq hu, List.filter_eq_nil_iff.2 (by simpa using hnew)]
  | append_singleton b k ih =>
    obtain ⟨v₀, hv₀, hk⟩ := along_append_ok.1 hv
    have hb₀ : ∀ j ∈ b, j ∈ homes.keysIn keys x := fun j hj => hb j (List.mem_append_left _ hj)
    obtain ⟨o, w, hp, hkept', hw, hlast, hle⟩ := ih hb₀ hv₀
    have hkx := hb k (by simp)
    have hmem : ∀ j, j ∈ o ↔ j ∈ a ∨ j ∈ b := fun j => hp.mem_iff.trans List.mem_append
    have hko : k ∉ o := by
      intro hm
      rcases (hmem k).1 hm with hm | hm
      · exact hnew k hm (mem_keysIn.1 hkx).2
      · exact (List.nodup_append.1 (nodup_of_along hv)).2.2 k hm k (by simp) rfl
    obtain ⟨d, hd, hnext⟩ := next_of_own hl hrange htotal
      (fun y hy g hg => (hmem g).2 (.inl (hlower y hy g hg)))
      (fun j hj => ⟨hb₀ j hj, (hmem j).2 (.inr hj)⟩) hkx hko hw hv₀ hlast hk
    -- the order that the planner keeps instead ends with the same key
    obtain ⟨q, w', hp', hkept'', hw', hle'⟩ :=
      exists_kept_of_extends hkept' (along_append_ok.2 ⟨w, hw, hnext⟩)
    refine ⟨q ++ [k], w', ?_, hkept'', hw', ?_, ?_⟩
    · rw [← List.append_assoc]
      exact (hp'.trans hp).append_right [k]
    · rw [lastIn_eq hw', List.filter_append]
      simp [(mem_keysIn.1 hkx).2]
    · have hw'' : (w.fetched (some x) k d).walked = w.walked + d := rfl
      omega

/-- **One quadrant after the other**, those with the smaller ranks first. -/
theorem exists_kept_of_layers {ord : Int → List Int} {v : Int → Walker}
    {todo : List Int} (hsorted : todo.Pairwise fun x y => rank x ≤ rank y) (hnodup : todo.Nodup)
    (hord : ∀ x ∈ todo, ∀ k, k ∈ ord x ↔ k ∈ homes.keysIn keys x)
    (hv : ∀ x ∈ todo, along (homes.ownTable legs keys x) start none (ord x) = .ok (v x))
    (hdone : ∀ y, ∀ g ∈ homes.keysIn keys y, g ∈ a ∨ y ∈ todo)
    (hnew : ∀ j ∈ a, ∀ x ∈ todo, homes.of? j ≠ some x) (hkept : Kept legs start (some homes) a)
    (hu : along legs start (some homes) a = .ok u) : ∃ o w,
      (∀ k, k ∈ o ↔ k ∈ a ∨ ∃ x ∈ todo, k ∈ homes.keysIn keys x) ∧
      Kept legs start (some homes) o ∧ along legs start (some homes) o = .ok w ∧
      w.walked ≤ u.walked + (todo.map fun x => (v x).walked).sum := by
  induction todo generalizing a u with
  | nil => exact ⟨a, u, by simp, hkept, hu, by simp⟩
  | cons x todo ih =>
    obtain ⟨hfirst, hsorted⟩ := List.pairwise_cons.1 hsorted
    obtain ⟨hx, hnodup⟩ := List.nodup_cons.1 hnodup
    have hordx := hord x List.mem_cons_self
    have hlower : ∀ y, rank y < rank x → ∀ g ∈ homes.keysIn keys y, g ∈ a := by
      intro y hy g hg
      rcases hdone y g hg with hga | hyt
      · exact hga
      · rcases List.mem_cons.1 hyt with rfl | hyt
        · omega
        · have := hfirst y hyt
          omega
    obtain ⟨o, w, hp, hkept, hw, -, hle⟩ := exists_kept_of_block hl hrange htotal hlower
      (fun j hj => hnew j hj x List.mem_cons_self) hkept hu (fun j hj => (hordx j).1 hj)
      (hv x List.mem_cons_self)
    have hmem : ∀ j, j ∈ o ↔ j ∈ a ∨ j ∈ homes.keysIn keys x := fun j => by
      rw [hp.mem_iff, List.mem_append, hordx]
    have hdone' : ∀ y, ∀ g ∈ homes.keysIn keys y, g ∈ o ∨ y ∈ todo := by
      intro y g hg
      rw [hmem]
      rcases hdone y g hg with hga | hyt
      · exact .inl (.inl hga)
      · rcases List.mem_cons.1 hyt with rfl | hyt
        · exact .inl (.inr hg)
        · exact .inr hyt
    have hnew' : ∀ j ∈ o, ∀ y ∈ todo, homes.of? j ≠ some y := by
      intro j hj y hy
      rcases (hmem j).1 hj with hj | hj
      · exact hnew j hj y (List.mem_cons_of_mem x hy)
      · rw [(mem_keysIn.1 hj).2]
        exact fun e => hx (Option.some.inj e ▸ hy)
    obtain ⟨o', w', hmem', hkept', hw', hle'⟩ := ih hsorted hnodup
      (fun y hy => hord y (List.mem_cons_of_mem x hy))
      (fun y hy => hv y (List.mem_cons_of_mem x hy)) hdone' hnew' hkept hw
    refine ⟨o', w', fun k => ?_, hkept', hw', ?_⟩
    · rw [hmem', hmem, or_assoc, List.exists_mem_cons_iff]
    · rw [List.map_cons, List.sum_cons]
      omega

/-- **Walks in layered quadrants** are matched by a kept ordering of all keys that costs no more. -/
theorem exists_keptTotal_le_sum {c : Int → Int} (hc : ∀ x ∈ homes.inUse keys,
      c x ∈ totals (homes.ownTable legs keys x) start none (homes.keysIn keys x)) :
    ∃ c' ∈ keptTotals legs start (some homes) keys, c' ≤ ∑ x ∈ homes.inUse keys, c x := by
  have : Nonempty Walker := ⟨atStart start⟩
  choose! ord v hord hv hcost using fun x hx => mem_totals.1 (hc x hx)
  set todo := (homes.inUse keys).toList.mergeSort fun x y => rank x ≤ rank y with htodo
  have hperm : todo.Perm (homes.inUse keys).toList := List.mergeSort_perm _ _
  have hmem : ∀ x, x ∈ todo ↔ x ∈ homes.inUse keys := fun x => by
    rw [hperm.mem_iff, Finset.mem_toList]
  have hsorted : todo.Pairwise fun x y => rank x ≤ rank y := by
    have htrans : ∀ x y z : Int, decide (rank x ≤ rank y) = true → decide (rank y ≤ rank z) = true →
        decide (rank x ≤ rank z) = true := by
      intro x y z hxy hyz
      simp only [decide_eq_true_eq] at *
      omega
    have hall : ∀ x y : Int, (decide (rank x ≤ rank y) || decide (rank y ≤ rank x)) = true := by
      intro x y
      simp only [Bool.or_eq_true, decide_eq_true_eq]
      omega
    exact (List.pairwise_mergeSort htrans hall _).imp fun h => of_decide_eq_true h
  have hplace : ∀ y, ∀ g ∈ homes.keysIn keys y, y ∈ todo := fun y g hg =>
    (hmem y).2 (mem_inUse_iff_ne_nil.2 (List.ne_nil_of_mem hg))
  obtain ⟨o, w, ho, hkept, hw, hle⟩ := exists_kept_of_layers hl hrange htotal hsorted
    (hperm.nodup_iff.2 (Finset.nodup_toList _)) (fun x hx => (hord x ((hmem x).1 hx)).2)
    (fun x hx => hv x ((hmem x).1 hx)) (fun y g hg => .inr (hplace y g hg)) (by simp) kept_nil
    along_nil
  have hsum : (todo.map fun x => (v x).walked).sum = ∑ x ∈ homes.inUse keys, c x := by
    rw [(hperm.map _).sum_eq, Finset.sum_map_toList]
    exact Finset.sum_congr rfl hcost
  refine ⟨w.walked, mem_keptTotals.2 ⟨o, w, ⟨nodup_of_along hw, fun k => ?_⟩, hkept, hw, rfl⟩, ?_⟩
  · rw [ho]
    constructor
    · rintro (hk | ⟨x, -, hk⟩)
      · simp at hk
      · exact (mem_keysIn.1 hk).1
    · intro hk
      obtain ⟨x, hx⟩ := htotal k hk
      exact .inr ⟨x, hplace x k (mem_keysIn.2 ⟨hk, hx⟩), mem_keysIn.2 ⟨hk, hx⟩⟩
  · rw [hsum] at hle
    simpa [atStart] using hle

/-- **In layered quadrants the cheapest kept ordering costs what the cheapest orderings of the quadrants
cost together.** -/
theorem isLeast_keptTotals {c : Int → Int} (hc : ∀ x ∈ homes.inUse keys,
      IsLeast (totals (homes.ownTable legs keys x) start none (homes.keysIn keys x)) (c x)) :
    IsLeast (keptTotals legs start (some homes) keys) (∑ x ∈ homes.inUse keys, c x) := by
  have hge : ∀ d ∈ keptTotals legs start (some homes) keys, ∑ x ∈ homes.inUse keys, c x ≤ d := by
    intro d hd
    obtain ⟨own, hown, rfl⟩ := exists_own_totals hrange (keptTotals_subset hd)
    exact Finset.sum_le_sum fun x hx => (hc x hx).2 (hown x)
  obtain ⟨d, hd, hle⟩ := exists_keptTotal_le_sum hl hrange htotal fun x hx => (hc x hx).1
  have heq : d = ∑ x ∈ homes.inUse keys, c x := Int.le_antisymm hle (hge d hd)
  exact ⟨heq ▸ hd, fun e he => hge e he⟩

end Layers

/-- Without a walk in some quadrant there is none of all keys. -/
theorem keptTotals_eq_empty (hrange : IdSet.InRange keys)
    (hx : totals (homes.ownTable legs keys x) start none (homes.keysIn keys x) = ∅) :
    keptTotals legs start (some homes) keys = ∅ := by
  refine Set.eq_empty_iff_forall_notMem.2 fun c hc => ?_
  obtain ⟨own, hown, -⟩ := exists_own_totals hrange (keptTotals_subset hc)
  have := hown x
  rw [hx] at this
  exact this

/-- **A crew needs as many moves as one agent in each quadrant by itself**, when the quadrants are layered. -/
theorem crew_eq_sum {crew : Crew} (progress keep : Bool) (hs : legs.Holds start)
    (hk : ∀ k ∈ keys, legs.Holds k ∧ k < IdSet.capacity) (hcrew : crew.homes? = some homes)
    (hserves : crew.Serves keys) (hl : Layered legs start homes keys rank) :
    let result :=
      ((Planner.ofProblem (.ofKeys legs keys start crew progress)).solve keep).2.outcome
    let own := fun x => ((Planner.ofProblem (.ofKeys (homes.ownTable legs keys x)
      (homes.keysIn keys x) start .one progress)).solve keep).2.outcome
    (result = .error (.impasse (.noOrder keys.length)) ↔ ∃ x ∈ homes.inUse keys,
      own x = .error (.impasse (.noOrder (homes.keysIn keys x).length))) ∧
    (result ≠ .error (.impasse (.noOrder keys.length)) → ∃ plan, ∃ plans : Int → Plan, result = .ok plan ∧
      (∀ x ∈ homes.inUse keys, own x = .ok (plans x)) ∧
      plan.cost = ∑ x ∈ homes.inUse keys, (plans x).cost) := by
  intro result own
  have hrange : IdSet.InRange keys := Problem.inRange_of_holds hk
  have htotal : ∀ k ∈ keys, ∃ x, homes.of? k = some x := by
    intro k hm
    obtain ⟨quadrant, hquad⟩ := Crew.exists_quadrantOf hserves hm
    rw [hcrew] at hquad
    obtain ⟨x, hx, -⟩ := quadrantOf_some_iff.1 hquad
    exact ⟨x, hx⟩
  have hown : ∀ x, (∃ plan, own x = .ok plan ∧
        IsLeast (totals (homes.ownTable legs keys x) start none (homes.keysIn keys x)) plan.cost) ∨
      own x = .error (.impasse (.noOrder (homes.keysIn keys x).length)) ∧
        totals (homes.ownTable legs keys x) start none (homes.keysIn keys x) = ∅ := by
    intro x
    have hholds : (homes.ownTable legs keys x).Holds start := hs
    exact solve_ofKeys_least_of_memoryless hholds (fun k hkx => hk k (mem_keysIn.1 hkx).1)
      (Crew.serves_one _) progress keep (memoryless_of_lone _ _)
  have hmany := solve_ofKeys_least hs hk hserves progress keep
  rw [hcrew] at hmany
  by_cases hbad : ∃ x ∈ homes.inUse keys,
      own x = .error (.impasse (.noOrder (homes.keysIn keys x).length))
  · have hresult : result = .error (.impasse (.noOrder keys.length)) := by
      obtain ⟨x, -, hx⟩ := hbad
      rcases hown x with ⟨plan, hr, -⟩ | ⟨-, hnone⟩
      · exact absurd (hx.symm.trans hr) (by simp)
      · rcases hmany with ⟨plan, -, hmem, -⟩ | ⟨hr, -⟩
        · exact absurd hmem (by simp [keptTotals_eq_empty hrange hnone])
        · exact hr
    exact ⟨⟨fun _ => hbad, fun _ => hresult⟩, fun h => absurd hresult h⟩
  · have hplans : ∀ x ∈ homes.inUse keys, ∃ plan, own x = .ok plan ∧
        IsLeast (totals (homes.ownTable legs keys x) start none (homes.keysIn keys x)) plan.cost :=
      fun x hx => (hown x).resolve_right fun h => hbad ⟨x, hx, h.1⟩
    have : Nonempty Plan := ⟨⟨0, [], 0, 0, .empty, 0⟩⟩
    choose! plans hplan hleast using hplans
    have hsum := isLeast_keptTotals hl hrange htotal hleast
    rcases hmany with ⟨plan, hr, hmin⟩ | ⟨-, hnone⟩
    · refine ⟨⟨fun h => absurd (h.symm.trans hr) (by simp), fun h => absurd h hbad⟩, fun _ => ?_⟩
      exact ⟨plan, plans, hr, hplan, hmin.unique hsum⟩
    · exact absurd hsum.1 (by simp [hnone])

variable {n : Int}

/-- **Several agents need as many moves as one agent in each quadrant by itself**, when the quadrants are
layered, and there is a plan for them when there is one for each quadrant. -/
theorem many_agents_eq_sum (progress keep : Bool) (hs : legs.Holds start)
    (hk : ∀ k ∈ keys, legs.Holds k ∧ k < IdSet.capacity)
    (hserves : (Crew.perQuadrant homes n).Serves keys)
    (hl : Layered legs start homes keys rank) :
    let result := ((Planner.ofProblem
      (.ofKeys legs keys start (.perQuadrant homes n) progress)).solve keep).2.outcome
    let own := fun x => ((Planner.ofProblem (.ofKeys (homes.ownTable legs keys x)
      (homes.keysIn keys x) start .one progress)).solve keep).2.outcome
    (result = .error (.impasse (.noOrder keys.length)) ↔ ∃ x ∈ homes.inUse keys,
      own x = .error (.impasse (.noOrder (homes.keysIn keys x).length))) ∧
    (result ≠ .error (.impasse (.noOrder keys.length)) → ∃ plan, ∃ plans : Int → Plan, result = .ok plan ∧
      (∀ x ∈ homes.inUse keys, own x = .ok (plans x)) ∧
      plan.cost = ∑ x ∈ homes.inUse keys, (plans x).cost) :=
  crew_eq_sum progress keep hs hk rfl hserves hl

/-- **The same for so many agents**, when there is room for them. -/
theorem ofQuadrants_eq_sum (progress keep : Bool) (hs : legs.Holds start)
    (hk : ∀ k ∈ keys, legs.Holds k ∧ k < IdSet.capacity)
    (hroom : -0x8000000000000000 ≤ n ∧ n < roomLimit) (hserves : (Crew.perQuadrant homes n).Serves keys)
    (hl : Layered legs start homes keys rank) :
    let result := ((Planner.ofProblem
      (.ofKeys legs keys start (.ofQuadrants homes n) progress)).solve keep).2.outcome
    let own := fun x => ((Planner.ofProblem (.ofKeys (homes.ownTable legs keys x)
      (homes.keysIn keys x) start .one progress)).solve keep).2.outcome
    (result = .error (.impasse (.noOrder keys.length)) ↔ ∃ x ∈ homes.inUse keys,
      own x = .error (.impasse (.noOrder (homes.keysIn keys x).length))) ∧
    (result ≠ .error (.impasse (.noOrder keys.length)) → ∃ plan, ∃ plans : Int → Plan, result = .ok plan ∧
      (∀ x ∈ homes.inUse keys, own x = .ok (plans x)) ∧
      plan.cost = ∑ x ∈ homes.inUse keys, (plans x).cost) :=
  crew_eq_sum progress keep hs hk (Crew.homes?_ofQuadrants homes n)
    (Crew.serves_ofQuadrants_iff.2 ⟨hroom, hserves⟩) hl

/-- Two quadrants: in one the keys 0 and 1, in the other the key 2, behind a gate of the key 0. -/
def gatedArm : LegTable :=
  ⟨4, #[none, some ⟨1, ⟨0⟩⟩, none, none, none, none, some ⟨2, ⟨0⟩⟩, some ⟨3, ⟨1⟩⟩, some ⟨4, ⟨1⟩⟩, none],
    rfl⟩

theorem many_agents_eq_sum_gatedArm :
    let homes : Homes := ⟨[(0, 0), (1, 0), (2, 1)]⟩
    (Crew.perQuadrant homes 4).Serves [0, 1, 2] ∧
      Layered gatedArm 3 homes [0, 1, 2] (fun x => x.toNat) ∧
      ∃ plan, ∃ plans : Int → Plan, ((Planner.ofProblem
          (.ofKeys gatedArm [0, 1, 2] 3 (.perQuadrant homes 4) true)).solve false).2.outcome = .ok plan ∧
        (∀ x ∈ homes.inUse [0, 1, 2], ((Planner.ofProblem (.ofKeys
          (homes.ownTable gatedArm [0, 1, 2] x) (homes.keysIn [0, 1, 2] x) 3 .one
            true)).solve false).2.outcome = .ok (plans x)) ∧
        plan.cost = ∑ x ∈ homes.inUse [0, 1, 2], (plans x).cost ∧ plan.cost = 7 := by
  intro homes
  have hserves : (Crew.perQuadrant homes 4).Serves [0, 1, 2] := by
    intro k hk
    simp only [List.mem_cons, List.not_mem_nil, or_false] at hk
    rcases hk with rfl | rfl | rfl
    · exact ⟨0, by decide⟩
    · exact ⟨0, by decide⟩
    · exact ⟨1, by decide⟩
  have hl : Layered gatedArm 3 homes [0, 1, 2] (fun x => x.toNat) := by
    have hall : ∀ k ∈ [0, 1, 2], ∀ origin ∈ [3, 0, 1, 2], ∀ g ∈ [0, 1, 2],
        ∀ leg ∈ (gatedArm.get origin k).toOption.join, g ∈ leg.gates.toList →
          homes.of? g ≠ homes.of? k →
            ((homes.of? g).getD 0).toNat < ((homes.of? k).getD 0).toNat := by decide +kernel
    intro x k hk origin horigin leg hleg y hyx g hg hgate
    obtain ⟨hk, hx⟩ := mem_keysIn.1 hk
    obtain ⟨hg, hy⟩ := mem_keysIn.1 hg
    have ho : origin ∈ [3, 0, 1, 2] := by
      rcases horigin with rfl | ⟨h, -⟩
      · exact List.mem_cons_self
      · exact List.mem_cons_of_mem _ (mem_keysIn.1 h).1
    have := hall k hk origin ho g hg leg (by rw [hleg]; rfl) hgate
    rw [hx, hy] at this
    exact this fun e => hyx (Option.some.inj e)
  have h : ((Planner.ofProblem (.ofKeys gatedArm [0, 1, 2] 3 (.perQuadrant homes 4)
      true)).solve false).2.outcome.map Plan.cost = .ok 7 := by cbv
  obtain ⟨plan, hplan, hcost⟩ := map_ok_iff.1 h
  obtain ⟨plan', plans, hplan', hplans, hsum⟩ :=
    (many_agents_eq_sum true false (by decide) (by decide) hserves hl).2 (by rw [hplan]; simp)
  rw [hplan, Except.ok.injEq] at hplan'
  subst hplan'
  exact ⟨hserves, hl, plan, plans, hplan, hplans, hsum, hcost⟩

end GatedMaze
