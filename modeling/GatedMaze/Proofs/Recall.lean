import GatedMaze.Proofs.OneAgent
import Mathlib

/-!
# Orders recalled from the ledger

A ledger keeps the last key before each state and not the order that leads there. After a search the
order is read back along these keys, and walking it bears out what the entry of the state says.

* `fits_of_fillLevel`, `fits_of_outcome`, `fits_of_plan`: the first level reads the leg from the start to
  each key, so a search that does not fail was asked about ids that the table and a set can hold.
* `borneOut_of_leads`: an entry of a filled ledger is borne out.
* `ledger_borneOut`: after a plan was found every entry is, and the plan is read off one of them.
-/

namespace GatedMaze

open Walker

/-- Before any entry every agent sets out from the start. -/
theorem Crew.origin_none {c : Crew} {start k origin : Int}
    (h : c.origin start none k = .ok origin) : origin = start := by
  cases c with
  | one => exact (Except.ok.inj h).symm
  | perQuadrant homes n =>
    obtain ⟨i, -, rfl⟩ := map_ok_iff.1 h
    show (((List.replicate n.toNat none)[i]?).join).getD start = start
    rw [List.getElem?_replicate]
    split <;> rfl
  | crowd homes reason => cases h

theorem Enumeration.inRange_of_fault {pool : List Int} {chosen : IdSet}
    (h : (extend none pool chosen (1 : Nat)).fault = none) : IdSet.InRange pool := by
  induction pool with
  | nil =>
    intro i hi
    simp at hi
  | cons i pool ih =>
    rw [extend_cons, if_neg (Nat.not_lt_zero _)] at h
    cases hi : chosen.insert i with
    | error e => simp [hi] at h
    | ok more =>
      simp only [hi, Nat.cast_zero, extend_zero, andThen] at h
      exact List.forall_mem_cons.2 ⟨(IdSet.insert_eq_ok_iff.1 hi).1, ih h⟩

namespace Problem

variable {p : Problem} {l l' : Ledger} {n c d : Nat} {o : List Int} {s : State} {e : Entry}
  {states : List State} {k : Int} {r : Option Entry}

/-- When no state of a level fails, each was resolved. -/
theorem exists_resolve (h : p.fillStates states c l = (l', .ok d)) (hs : s ∈ states) :
    ∃ l₀ r, p.resolve l₀ s.held s.last = .ok r := by
  induction states generalizing c l with
  | nil => simp at hs
  | cons t states ih =>
    rw [fillStates] at h
    cases hr : p.resolve l t.held t.last with
    | error e => simp [hr] at h
    | ok r =>
      rcases List.mem_cons.1 hs with rfl | hs
      · exact ⟨l, r, hr⟩
      · cases r with
        | none =>
          rw [hr] at h
          exact ih h hs
        | some entry =>
          rw [hr] at h
          exact ih h hs

/-- A key by itself is resolved by its leg from the start. -/
theorem exists_get_of_resolve (hk : 0 ≤ k ∧ k < IdSet.capacity)
    (h : p.resolve l (IdSet.empty.add k.toNat) k = .ok r) :
    p.crew.origin p.start none k = .ok p.start ∧ ∃ found, p.legs.get p.start k = .ok found := by
  have hrest : (IdSet.empty.add k.toNat).drop k.toNat = .empty :=
    IdSet.drop_add (by simp [IdSet.empty])
  unfold resolve at h
  obtain ⟨rest, he, h⟩ := bind_ok_iff.1 h
  rw [IdSet.erase_eq hk, Except.ok.injEq, hrest] at he
  subst he
  rw [if_pos (IdSet.isEmpty_iff.2 rfl)] at h
  unfold transition at h
  obtain ⟨origin, ho, h⟩ := bind_ok_iff.1 h
  obtain ⟨found, hf, -⟩ := bind_ok_iff.1 h
  obtain rfl := Crew.origin_none ho
  exact ⟨ho, found, hf⟩

/-- **The first level** goes through each key by itself. -/
theorem fits_of_fillLevel (hserves : ∀ homes n, p.crew = .perQuadrant homes n → p.crew.Serves p.keys)
    (hne : p.keys ≠ []) (h : p.fillLevel 1 l = (l', .ok d)) : p.Fits := by
  obtain ⟨hfault, hstates⟩ : (subsetsOfSize p.keys (1 : Nat)).fault = none ∧
      p.fillStates ((subsetsOfSize p.keys (1 : Nat)).subsets.flatMap statesOf) 0 l = (l', .ok d) := by
    rw [fillLevel] at h
    split at h
    · cases h
    · next hno =>
      refine ⟨?_, h⟩
      cases hf : (subsetsOfSize p.keys (1 : Nat)).fault with
      | none => rfl
      | some e => exact absurd hf (hno _ _ e h)
  have hsorted := Enumeration.inRange_of_fault hfault
  have hrange : IdSet.InRange p.keys := fun k hk => hsorted k (List.mem_mergeSort.2 hk)
  have hread : ∀ k ∈ p.keys, p.crew.origin p.start none k = .ok p.start ∧
      ∃ found, p.legs.get p.start k = .ok found := by
    intro k hk
    have hlone : IdSet.empty.add k.toNat ∈ (subsetsOfSize p.keys (1 : Nat)).subsets :=
      (mem_subsetsOfSize_iff hrange).2
        ⟨[k], List.singleton_sublist.2 (List.mem_mergeSort.2 hk), rfl, rfl⟩
    have hmem : k ∈ (IdSet.empty.add k.toNat).toList := by
      rw [IdSet.mem_toList, IdSet.testBit_add]
      exact ⟨(hrange k hk).1, by simp⟩
    obtain ⟨l₀, r, hr⟩ := exists_resolve hstates (s := ⟨IdSet.empty.add k.toNat, k⟩)
      (List.mem_flatMap.2 ⟨_, hlone, List.mem_map.2 ⟨k, hmem, rfl⟩⟩)
    exact exists_get_of_resolve (hrange k hk) hr
  have hholds : ∀ k ∈ p.keys, p.legs.Holds p.start ∧ p.legs.Holds k := by
    intro k hk
    obtain ⟨-, found, hf⟩ := hread k hk
    by_contra hout
    rw [PairTable.get_outside hout] at hf
    cases hf
  obtain ⟨k, hk⟩ := List.exists_mem_of_ne_nil _ hne
  refine ⟨(hholds k hk).1, fun k hk => ⟨(hholds k hk).2, (hrange k hk).2⟩, ?_⟩
  have ho := (hread k hk).1
  cases hc : p.crew with
  | one => trivial
  | perQuadrant homes n => exact hc ▸ hserves homes n hc
  | crowd homes reason =>
    rw [hc] at ho
    cases ho

/-- A search that does not fail was asked about ids that the table and a set can hold. -/
theorem fits_of_outcome (hserves : ∀ homes n, p.crew = .perQuadrant homes n → p.crew.Serves p.keys)
    (hne : p.keys ≠ []) (h : (p.fillLevels (List.range' 1 p.keys.length) l).outcome = .ok ()) :
    p.Fits := by
  obtain ⟨n, hn⟩ := Nat.exists_eq_succ_of_ne_zero fun e => hne (List.length_eq_zero_iff.1 e)
  rw [hn, List.range'_succ, fillLevels] at h
  cases hlevel : p.fillLevel 1 l with
  | mk l' r =>
    cases r with
    | error e => simp [hlevel] at h
    | ok d => exact fits_of_fillLevel hserves hne hlevel

/-- A planner that finds a plan for some keys was asked about ids that the table and a set can hold. -/
theorem fits_of_plan {keep : Bool} {plan : Plan}
    (hserves : ∀ homes n, p.crew = .perQuadrant homes n → p.crew.Serves p.keys) (hne : p.keys ≠ [])
    (h : ((Planner.ofProblem p).solve keep).2.outcome = .ok plan) : p.Fits := by
  have hlen : ¬ p.keys.length = 0 := fun e => hne (List.length_eq_zero_iff.1 e)
  unfold Planner.solve Planner.ofProblem at h
  rw [if_neg hlen] at h
  cases hout : (p.fillLevels (List.range' 1 p.keys.length) .empty).outcome with
  | error e => simp [hout] at h
  | ok u => exact fits_of_outcome hserves hne hout

/-- **A search that finds a plan** has filled every level, and the plan is read off the ledger. -/
theorem solve_ok {plan : Plan}
    (hserves : ∀ homes n, p.crew = .perQuadrant homes n → p.crew.Serves p.keys) (hne : p.keys ≠ [])
    (h : ((Planner.ofProblem p).solve true).2.outcome = .ok plan) : p.Fits ∧
      p.Filled p.keys.length ((Planner.ofProblem p).solve true).1.ledger ∧
      Planner.conclude ⟨p, ((Planner.ofProblem p).solve true).1.ledger⟩ = .ok plan := by
  have hlen : ¬ p.keys.length = 0 := fun e => hne (List.length_eq_zero_iff.1 e)
  set pass := p.fillLevels (List.range' 1 p.keys.length) .empty with hpass
  unfold Planner.solve Planner.ofProblem at h ⊢
  rw [if_neg hlen] at h ⊢
  simp only [← hpass] at h ⊢
  cases hout : pass.outcome with
  | error e => simp [hout] at h
  | ok u =>
    have hp := fits_of_outcome hserves hne hout
    obtain ⟨-, hfill⟩ := fillLevels_spec hp p.keys.length (filled_empty (p := p))
    rw [Nat.zero_add, ← hpass] at hfill
    simp only [hout] at h ⊢
    cases hc : Planner.conclude ⟨p, pass.ledger⟩ with
    | error e => simp [hc] at h
    | ok plan' =>
      simp only [hc, if_true] at h ⊢
      exact ⟨hp, hfill, h⟩

/-- An entry that walking bears out. The order read back on the way into its state holds the keys of the
state, ends with the last of them and costs what the entry says, and each agent stands at the last key of
its quadrant, if there is one. -/
structure BorneOut (p : Problem) (l : Ledger) (s : State) (e : Entry) : Prop where
  last : s.last ∈ s.held.toList
  ordering : IsOrdering s.held.toList (l.orderInto s.held s.last)
  ends : (l.orderInto s.held s.last).getLast? = some s.last
  replays : ∃ r, (replay p.legs p.start (l.orderInto s.held s.last) p.crew.homes?).outcome = .ok r ∧
    r.cost = e.cost
  posts : ∀ homes n, p.crew = .perQuadrant homes n → e.posts = (List.range n.toNat).map fun x : Nat =>
    ((l.orderInto s.held s.last).filter fun k => homes.of? k = some (x : Int)).getLast?

/-- **An entry of a filled ledger is borne out.** -/
theorem borneOut_of_leads (hl : p.Filled n l) (h : p.Leads o s e) (hn : o.length ≤ n) :
    p.BorneOut l s e := by
  have horder : l.orderInto s.held s.last = o := orderInto_of_leads hl h hn
  have hlast := h.mem_last
  obtain ⟨q, w, rfl, -, -, hw, hheld, rfl⟩ := h
  refine ⟨hlast, ?_, ?_, ?_, fun homes m hc => ?_⟩
  · rw [horder, ← hheld]
    exact ⟨nodup_of_along hw, fun k => (mem_toList_held hw).symm⟩
  · rw [horder]
    simp
  · rw [horder]
    exact replay_ok_iff.2 ⟨w, hw, rfl⟩
  · have hw' : Walker.along p.legs p.start (some homes) (q ++ [s.last]) = .ok w := by
      rw [along, hc] at hw
      exact hw
    rw [horder]
    simp only [Crew.entryOf, Crew.postsOf, hc, lastIn_eq hw']

/-- **The plan is that of a state in which all keys are held.** -/
theorem exists_entry_of_conclude {plan : Plan} (hp : p.Fits) (hne : p.keys ≠ [])
    (hl : p.Filled p.keys.length l) (h : Planner.conclude ⟨p, l⟩ = .ok plan) :
    ∃ k e, l.get? ⟨p.full, k⟩ = some e ∧ plan.order = l.orderInto p.full k ∧ plan.cost = e.cost := by
  have hanswers := answers_conclude hp hne hl
  rw [h] at hanswers
  cases hanswers with
  | plan plan w ordering kept along cost homes least =>
    have horder : plan.order ≠ [] := by
      obtain ⟨k, hk⟩ := List.exists_mem_of_ne_nil _ hne
      exact List.ne_nil_of_mem ((ordering.2 k).2 hk)
    obtain ⟨q, k, hq⟩ := (List.eq_nil_or_concat' plan.order).resolve_left horder
    have hlead := (leads_full_iff hp).2 ⟨q, w, hq, ordering, kept, along, rfl⟩
    exact ⟨k, _, hl.complete _ _ _ hlead hlead.length_le,
      (orderInto_of_leads hl hlead hlead.length_le).symm, cost⟩

end Problem

variable {legs : LegTable} {keys : List Int} {start : Int} {c : Crew} {plan : Plan}

/-- **Every entry of a search that found a plan is borne out**, be it for one agent or for one in each
quadrant. With keys the plan is that of a state in which all of them are held; without keys there are no
states and the plan is empty. -/
theorem ledger_borneOut (progress : Bool)
    (hserves : ∀ homes n, c = .perQuadrant homes n → c.Serves keys)
    (h : ((Planner.ofProblem (.ofKeys legs keys start c progress)).solve true).2.outcome = .ok plan) :
    let p := Problem.ofKeys legs keys start c progress
    let l := ((Planner.ofProblem p).solve true).1.ledger
    (∀ s e, l.get? s = some e → (∀ k ∈ s.held.toList, k ∈ keys) ∧ p.BorneOut l s e) ∧
      (keys ≠ [] → ∃ s e, l.get? s = some e ∧ (∀ k, k ∈ s.held.toList ↔ k ∈ keys) ∧
        plan.order = l.orderInto s.held s.last ∧ plan.cost = e.cost) ∧
      (keys = [] → plan.order = [] ∧ plan.cost = 0 ∧ ∀ s, l.get? s = none) := by
  intro p l
  have hmem : ∀ k, k ∈ p.keys ↔ k ∈ keys := fun k => List.mem_mergeSort
  rcases eq_or_ne keys [] with rfl | hne
  · have hempty : ∀ s, l.get? s = none := by
      intro s
      simp [l, p, Problem.ofKeys, Planner.solve, Planner.ofProblem, Ledger.get?, Ledger.empty]
    refine ⟨fun s e hget => ?_, fun hne => absurd rfl hne, fun _ => ?_⟩
    · rw [hempty] at hget
      cases hget
    · have hplan : Planner.planOf (Planner.ofProblem p) 0 [] 0 = plan := by
        simpa [p, Problem.ofKeys, Planner.solve, Planner.ofProblem] using h
      subst hplan
      exact ⟨rfl, rfl, hempty⟩
  · have hne' : p.keys ≠ [] := by
      obtain ⟨k, hk⟩ := List.exists_mem_of_ne_nil _ hne
      exact List.ne_nil_of_mem ((hmem k).2 hk)
    have hserves' : ∀ homes n, p.crew = .perQuadrant homes n → p.crew.Serves p.keys := by
      intro homes n hc
      exact (hserves homes n hc).of_subset fun k hk => (hmem k).1 hk
    obtain ⟨hp, hl, hplan⟩ := Problem.solve_ok hserves' hne' h
    refine ⟨fun s e hget => ?_, fun _ => ?_, fun he => absurd he hne⟩
    · obtain ⟨o, ho⟩ := hl.sound s e hget
      exact ⟨fun k hk => (hmem k).1 (ho.held_subset k hk),
        Problem.borneOut_of_leads hl ho ho.length_le⟩
    · obtain ⟨k, e, hget, horder, hcost⟩ := Problem.exists_entry_of_conclude hp hne' hl hplan
      exact ⟨⟨p.full, k⟩, e, hget, fun j => (Problem.mem_full hp).trans (hmem j), horder, hcost⟩

theorem ledger_borneOut_gatedPair :
    let c := Crew.perQuadrant ⟨[(0, 0), (1, 1)]⟩ 4
    let p := Problem.ofKeys gatedPair [1, 0] 2 c true
    let l := ((Planner.ofProblem p).solve true).1.ledger
    c.Serves [1, 0] ∧ ∃ plan, ((Planner.ofProblem p).solve true).2.outcome = .ok plan ∧
      ∃ s e, l.get? s = some e ∧ (∀ k, k ∈ s.held.toList ↔ k ∈ [1, 0]) ∧
        plan.order = l.orderInto s.held s.last ∧ plan.cost = e.cost ∧ p.BorneOut l s e := by
  intro c p l
  have hserves : c.Serves [1, 0] := by
    intro k hk
    rcases List.mem_cons.1 hk with rfl | hk
    · exact ⟨1, by decide⟩
    · obtain rfl := List.mem_singleton.1 hk
      exact ⟨0, by decide⟩
  have h : ((Planner.ofProblem p).solve true).2.outcome.map Plan.cost = .ok 5 := by cbv
  obtain ⟨plan, hplan, -⟩ := map_ok_iff.1 h
  obtain ⟨hall, hsome, -⟩ := ledger_borneOut true (fun _ _ _ => hserves) hplan
  obtain ⟨s, e, hget, hheld, horder, hcost⟩ := hsome (by simp)
  exact ⟨hserves, plan, hplan, s, e, hget, hheld, horder, hcost, (hall s e hget).2⟩

/-- **Without keys a plan is found and no state has an entry**, so the plan is not that of a state. -/
theorem no_entry_without_keys :
    let p := Problem.ofKeys (PairTable.replicate 1 none) [] 0 .one true
    let l := ((Planner.ofProblem p).solve true).1.ledger
    ∃ plan, ((Planner.ofProblem p).solve true).2.outcome = .ok plan ∧
      ¬ ∃ s e, l.get? s = some e ∧ (∀ k, k ∈ s.held.toList ↔ k ∈ ([] : List Int)) ∧
        plan.order = l.orderInto s.held s.last ∧ plan.cost = e.cost := by
  have hplan : ((Planner.ofProblem (.ofKeys (PairTable.replicate 1 none) [] 0 .one true)).solve
      true).2.outcome = .ok ⟨0, [], 1, 0, .empty, 0⟩ := by cbv
  have hempty : ((Planner.ofProblem (.ofKeys (PairTable.replicate 1 none) [] 0 .one true)).solve
      true).1.ledger = .empty := by cbv
  intro p l
  refine ⟨_, hplan, ?_⟩
  rintro ⟨s, e, hget, -⟩
  have hnone : l.get? s = none := by
    show ((Planner.ofProblem p).solve true).1.ledger.get? s = none
    rw [hempty]
    simp [Ledger.get?, Ledger.empty]
  rw [hnone] at hget
  cases hget

end GatedMaze
