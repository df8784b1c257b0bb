import GatedMaze.Proofs.Levels

/-!
# The plan of a search

* `orderInto_of_leads`: the order read back from a filled ledger is the one that leads into a state.
* `solve_spec`: a planner finds the cheapest kept ordering of its keys, or reports that none is kept.
* `solve_least`: the same, said of the costs of these orderings.
* `solve_least_of_memoryless`: without memory the cheapest kept ordering is the cheapest of all.
* `solve_ofKeys_least`, `solve_ofKeys_least_of_memoryless`: the same for keys in any order.
-/

namespace GatedMaze.Problem

open Walker

variable {p : Problem} {l : Ledger} {n : Nat} {o : List Int} {s : State} {e : Entry} {w : Walker}

/-- **The keys read back on the way into a state** are those of the order that leads there, the last
one first. -/
theorem trail_of_leads (hl : p.Filled n l) (h : p.Leads o s e) (hn : o.length ≤ n) :
    l.trail s.held s.last = o.reverse := by
  induction o using List.reverseRecOn generalizing s e with
  | nil => obtain ⟨q, w, he, -⟩ := h; simp at he
  | append_singleton q k ih =>
    have hget := hl.complete _ s e h hn
    have hmem := h.mem_last
    have hkey := h.held_subset _ hmem
    obtain rfl : k = s.last := by
      obtain ⟨q', w, he, -⟩ := h
      exact List.singleton_inj.1 (List.append_inj' he rfl).2
    rw [Ledger.trail]
    by_cases hrest : s.held.drop s.last.toNat = .empty
    · obtain ⟨ho, w, -, rfl⟩ := (leads_iff_of_lone hmem hkey hrest).1 h
      have hq : q = [] := by simpa using ho
      subst hq
      rw [hget]
      rfl
    · obtain ⟨q', j, prev, w, w', hlead, -, -, ho, rfl, -⟩ := (leads_iff hmem hkey hrest).1 h
      obtain rfl : q = q' := (List.append_inj' ho rfl).1
      have hlast : q.getLast? = some j := by
        obtain ⟨q₀, -, hq₀, -⟩ := hlead
        rw [hq₀]; simp
      have hlen : q.length ≤ n := by
        simp only [List.length_append, List.length_singleton] at hn
        omega
      rw [hget]
      simp only [Crew.entryOf, hlast, dif_pos (IdSet.mem_toList.1 hmem)]
      rw [ih hlead hlen, List.reverse_append]
      rfl

/-- **The order read back is the one that leads into the state.** -/
theorem orderInto_of_leads (hl : p.Filled n l) (h : p.Leads o s e)
    (hn : o.length ≤ n) : l.orderInto s.held s.last = o := by
  rw [Ledger.orderInto, trail_of_leads hl h hn, List.reverse_reverse]

/-- The set of all keys of a problem. -/
def full (p : Problem) : IdSet := IdSet.empty.addAll p.keys

theorem mem_full (hp : p.Fits) {k : Int} : k ∈ p.full.toList ↔ k ∈ p.keys :=
  IdSet.mem_addAll_empty hp.range

/-- An accepted order holds all keys in the end exactly when it is an ordering of them. -/
theorem held_eq_full_iff (hp : p.Fits) (hw : p.along o = .ok w) :
    w.held = p.full ↔ IsOrdering p.keys o := by
  constructor
  · intro h
    exact ⟨nodup_of_along hw, fun k => by rw [← mem_toList_held hw, h, mem_full hp]⟩
  · intro h
    apply IdSet.ext_toList
    intro k
    rw [mem_toList_held hw, mem_full hp, h.2 k]

/-- The orders that lead into a state in which all keys are held are the kept orderings. -/
theorem leads_full_iff (hp : p.Fits) {k : Int} : p.Leads o ⟨p.full, k⟩ e ↔
    ∃ q w, o = q ++ [k] ∧ IsOrdering p.keys o ∧ p.Kept o ∧ p.along o = .ok w ∧
      e = p.crew.entryOf q w := by
  constructor
  · rintro ⟨q, w, ho, -, hk, hw, hs, rfl⟩
    exact ⟨q, w, ho, (held_eq_full_iff hp hw).1 hs, hk, hw, rfl⟩
  · rintro ⟨q, w, ho, hord, hk, hw, rfl⟩
    exact ⟨q, w, ho, fun x hx => (hord.2 x).1 hx, hk, hw, (held_eq_full_iff hp hw).2 hord, rfl⟩

/-- The cheapest end is found by comparing the entries one after the other. -/
theorem cheapestEnd_eq (l : Ledger) (full : IdSet) : cheapestEnd l full =
    full.toList.foldl (fun b k =>
      cheaperBy (fun x : Int × Entry => x.2.cost) b
        ((l.get? ⟨full, k⟩).map fun e => (k, e))) none := by
  unfold cheapestEnd
  congr 1
  funext b k
  cases l.get? ⟨full, k⟩ <;> cases b <;> rfl

/-- What a planner reports: the cheapest kept ordering of its keys, and of several the one with the
smallest last key; or that none is kept. -/
inductive Answers (p : Problem) : Except Fault Plan → Prop
  | plan (plan : Plan) (w : Walker) (ordering : IsOrdering p.keys plan.order)
      (kept : p.Kept plan.order) (along : p.along plan.order = .ok w) (cost : plan.cost = w.walked)
      (homes : plan.homes = p.crew.homes)
      (least : ∀ o w', IsOrdering p.keys o → p.Kept o → p.along o = .ok w' →
        w.walked < w'.walked ∨
          w.walked = w'.walked ∧ plan.order.getLast?.getD p.start ≤ o.getLast?.getD p.start) :
      Answers p (.ok plan)
  | none (none_kept : ∀ o, IsOrdering p.keys o → ¬ p.Kept o) :
      Answers p (.error (.impasse (.noOrder p.keys.length)))

/-- The plan read off a ledger in which all levels are filled. -/
theorem answers_conclude (hp : p.Fits) (hne : p.keys ≠ []) (hl : p.Filled p.keys.length l) :
    p.Answers (Planner.conclude ⟨p, l⟩) := by
  have hlead : ∀ o w, IsOrdering p.keys o → p.Kept o → p.along o = .ok w →
      ∃ q k, o = q ++ [k] ∧ k ∈ p.full.toList ∧
        l.get? ⟨p.full, k⟩ = some (p.crew.entryOf q w) := by
    intro o w hord hk hw
    have hne' : o ≠ [] := by
      rintro rfl
      exact hne (List.eq_nil_iff_forall_not_mem.2 fun k hk => by simpa using (hord.2 k).2 hk)
    obtain ⟨q, k, rfl⟩ := (List.eq_nil_or_concat' o).resolve_left hne'
    have h := (leads_full_iff hp).2 ⟨q, w, rfl, hord, hk, hw, rfl⟩
    exact ⟨q, k, rfl, h.mem_last, hl.complete _ _ _ h h.length_le⟩
  unfold Planner.conclude
  rw [IdSet.ofList_eq hp.range]
  simp only [bind, Except.bind]
  rw [← full, cheapestEnd_eq]
  rcases foldl_cheaper (fun x : Int × Entry => x.2.cost) (IdSet.pairwise_toList p.full)
    (fun k => (l.get? ⟨p.full, k⟩).map fun e => (k, e)) with
    ⟨hr, hnone⟩ | ⟨k, hk, b, hb, hr, hmin⟩
  · rw [hr]
    refine .none fun o hord hkept => ?_
    obtain ⟨w, hw⟩ := hkept.exists_along
    obtain ⟨q, k, -, hk, hget⟩ := hlead o w hord hkept hw
    simpa [hget] using hnone k hk
  · obtain ⟨e, hget, rfl⟩ := Option.map_eq_some_iff.1 hb
    rw [hr]
    obtain ⟨o, ho⟩ := hl.sound _ _ hget
    have horder : l.orderInto p.full k = o := orderInto_of_leads hl ho ho.length_le
    obtain ⟨q, w, rfl, hord, hkept, hw, rfl⟩ := (leads_full_iff hp).1 ho
    refine .plan _ w ?_ ?_ ?_ rfl rfl ?_
    · simpa only [Planner.planOf, horder] using hord
    · simpa only [Planner.planOf, horder] using hkept
    · simpa only [Planner.planOf, horder] using hw
    · intro o' w' hord' hkept' hw'
      obtain ⟨q', k', rfl, hk', hget'⟩ := hlead o' w' hord' hkept' hw'
      have := hmin k' hk' (k', p.crew.entryOf q' w') (by rw [hget']; rfl)
      simpa [Planner.planOf, horder, Crew.entryOf] using this

/-- **A planner finds the cheapest kept ordering of its keys**, or reports that none is kept. -/
theorem solve_spec (hp : p.Fits) (keep : Bool) :
    p.Answers ((Planner.ofProblem p).solve keep).2.outcome := by
  unfold Planner.solve Planner.ofProblem
  by_cases hlen : p.keys.length = 0
  · rw [if_pos hlen]
    have hkeys := List.length_eq_zero_iff.1 hlen
    have hord : ∀ o, IsOrdering p.keys o → o = [] := by
      intro o ho
      rw [hkeys] at ho
      exact List.eq_nil_iff_forall_not_mem.2 fun k hk => by simpa using (ho.2 k).1 hk
    refine .plan _ (atStart p.start) ?_ kept_nil rfl rfl rfl ?_
    · rw [hkeys]; exact ⟨List.nodup_nil, fun k => Iff.rfl⟩
    · intro o w' ho _ hw'
      rw [hord o ho] at hw' ⊢
      obtain rfl := along_nil_ok.1 hw'
      exact .inr ⟨rfl, le_rfl⟩
  · rw [if_neg hlen]
    have hne : p.keys ≠ [] := fun h => hlen (by rw [h]; rfl)
    obtain ⟨hout, hfill⟩ := fillLevels_spec hp p.keys.length (filled_empty (p := p))
    rw [Nat.zero_add] at hout hfill
    have hconclude := answers_conclude hp hne hfill
    simp only
    rw [hout]
    revert hconclude
    cases Planner.conclude ⟨p, (p.fillLevels (List.range' 1 p.keys.length) .empty).ledger⟩ with
    | error e => exact id
    | ok plan => exact id

end GatedMaze.Problem

namespace GatedMaze

open Walker

variable {legs : LegTable} {start : Int} {homes : Option Homes} {keys : List Int}

/-- The costs of the kept orderings of some keys. -/
def keptTotals (legs : LegTable) (start : Int) (homes : Option Homes) (keys : List Int) : Set Int :=
  {c | ∃ o, IsOrdering keys o ∧ Kept legs start homes o ∧
    ∃ r, (replay legs start o homes).outcome = .ok r ∧ r.cost = c}

theorem mem_keptTotals {c : Int} : c ∈ keptTotals legs start homes keys ↔
    ∃ o w, IsOrdering keys o ∧ Kept legs start homes o ∧ along legs start homes o = .ok w ∧
      w.walked = c := by
  simp only [keptTotals, Set.mem_ofPred_eq, replay_ok_iff, exists_and_left]

theorem keptTotals_subset : keptTotals legs start homes keys ⊆ totals legs start homes keys := by
  intro c hc
  obtain ⟨o, w, hord, -, hw, hcost⟩ := mem_keptTotals.1 hc
  exact mem_totals.2 ⟨o, w, hord, hw, hcost⟩

/-- Without memory every cost of an ordering is matched by that of a kept ordering. -/
theorem exists_keptTotal_le (hm : Memoryless legs start homes) {c : Int}
    (hc : c ∈ totals legs start homes keys) : ∃ c' ∈ keptTotals legs start homes keys, c' ≤ c := by
  obtain ⟨o, w, hord, hw, rfl⟩ := mem_totals.1 hc
  obtain ⟨o', w', hp, -, hkept, hw', hle⟩ := exists_kept_le hm hw
  exact ⟨w'.walked, mem_keptTotals.2 ⟨o', w', hord.of_perm hp, hkept, hw', rfl⟩, hle⟩

/-- **The plan costs what the cheapest kept ordering costs**, and there is none without such an
ordering. -/
theorem Problem.solve_least {p : Problem} (hp : p.Fits) (keep : Bool) :
    let result := ((Planner.ofProblem p).solve keep).2.outcome
    let kept := keptTotals p.legs p.start p.crew.homes? p.keys
    (∃ plan, result = .ok plan ∧ IsLeast kept plan.cost) ∨
      result = .error (.impasse (.noOrder p.keys.length)) ∧ kept = ∅ := by
  intro result kept
  have hspec : p.Answers result := Problem.solve_spec hp keep
  generalize result = r at hspec
  cases hspec with
  | plan plan w ordering hkept along cost homes least =>
    refine .inl ⟨plan, rfl, mem_keptTotals.2 ⟨plan.order, w, ordering, hkept, along, cost.symm⟩, ?_⟩
    intro c hc
    obtain ⟨o, v, ho, hk, hv, rfl⟩ := mem_keptTotals.1 hc
    have := least o v ho hk hv
    omega
  | none none_kept =>
    refine .inr ⟨rfl, Set.eq_empty_iff_forall_notMem.2 fun c hc => ?_⟩
    obtain ⟨o, v, ho, hk, -⟩ := mem_keptTotals.1 hc
    exact none_kept o ho hk

/-- **Without memory the plan costs what the cheapest ordering costs**, and there is none only if no
ordering can be walked. -/
theorem Problem.solve_least_of_memoryless {p : Problem} (hp : p.Fits) (keep : Bool)
    (hm : Memoryless p.legs p.start p.crew.homes?) :
    let result := ((Planner.ofProblem p).solve keep).2.outcome
    let all := totals p.legs p.start p.crew.homes? p.keys
    (∃ plan, result = .ok plan ∧ IsLeast all plan.cost) ∨
      result = .error (.impasse (.noOrder p.keys.length)) ∧ all = ∅ := by
  intro result all
  rcases Problem.solve_least hp keep with ⟨plan, hr, hmem, hleast⟩ | ⟨hr, hnone⟩
  · refine .inl ⟨plan, hr, keptTotals_subset hmem, fun c hc => ?_⟩
    obtain ⟨c', hc', hle⟩ := exists_keptTotal_le hm hc
    exact Int.le_trans (hleast hc') hle
  · refine .inr ⟨hr, Set.eq_empty_iff_forall_notMem.2 fun c hc => ?_⟩
    obtain ⟨c', hc', -⟩ := exists_keptTotal_le hm hc
    rw [hnone] at hc'
    exact hc'.elim

section Keys

variable {legs : LegTable} {start : Int} {keys : List Int} {crew : Crew}

theorem totals_mergeSort {homes : Option Homes} (le : Int → Int → Bool) :
    totals legs start homes (keys.mergeSort le) = totals legs start homes keys := by
  simp only [totals, IsOrdering, List.mem_mergeSort]

theorem keptTotals_mergeSort {homes : Option Homes} {le : Int → Int → Bool} :
    keptTotals legs start homes (keys.mergeSort le) = keptTotals legs start homes keys := by
  simp only [keptTotals, IsOrdering, List.mem_mergeSort]

variable (hs : legs.Holds start) (hk : ∀ k ∈ keys, legs.Holds k ∧ k < IdSet.capacity)
  (hcrew : crew.Serves keys)
include hs hk hcrew

theorem fits_ofKeys (progress : Bool) : (Problem.ofKeys legs keys start crew progress).Fits where
  start := hs
  keys := fun k hm => hk k (List.mem_mergeSort.1 hm)
  crew := hcrew.of_subset fun _ hm => List.mem_mergeSort.1 hm

/-- **What a crew is told about some keys.** -/
theorem solve_ofKeys_least (progress keep : Bool) :
    let result := ((Planner.ofProblem (.ofKeys legs keys start crew progress)).solve keep).2.outcome
    let kept := keptTotals legs start crew.homes? keys
    (∃ plan, result = .ok plan ∧ IsLeast kept plan.cost) ∨
      result = .error (.impasse (.noOrder keys.length)) ∧ kept = ∅ := by
  have hlen : (keys.mergeSort fun a b => a ≤ b).length = keys.length := List.length_mergeSort keys
  have hspec := Problem.solve_least (fits_ofKeys hs hk hcrew progress) keep
  simp only [Problem.ofKeys, keptTotals_mergeSort, hlen] at hspec
  exact hspec

/-- What a crew without memory is told about some keys. -/
theorem solve_ofKeys_least_of_memoryless (progress keep : Bool)
    (hm : Memoryless legs start crew.homes?) :
    let result := ((Planner.ofProblem (.ofKeys legs keys start crew progress)).solve keep).2.outcome
    let all := totals legs start crew.homes? keys
    (∃ plan, result = .ok plan ∧ IsLeast all plan.cost) ∨
      result = .error (.impasse (.noOrder keys.length)) ∧ all = ∅ := by
  have hlen : (keys.mergeSort fun a b => a ≤ b).length = keys.length := List.length_mergeSort keys
  have hspec :=
    Problem.solve_least_of_memoryless (fits_ofKeys hs hk hcrew progress) keep hm
  simp only [Problem.ofKeys, totals_mergeSort, hlen] at hspec
  exact hspec

end Keys

end GatedMaze
