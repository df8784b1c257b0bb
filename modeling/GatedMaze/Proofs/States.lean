import GatedMaze.Proofs.Cheapest
import GatedMaze.Proofs.Entries
import GatedMaze.Proofs.KeptOrders

/-!
# States and the orders that lead into them

A kept order leads into the state of its keys and its last key, and brings the entry of that state.

* `Leads.unique`: one order leads into a state.
* `leads_iff`, `leads_iff_of_lone`: how a kept order comes about from the kept orders before it.
* `resolve_spec`: on a ledger whose lower levels are `Filled`, a state is resolved to the entry of the
  kept order that leads into it.
-/

namespace GatedMaze.Problem

open Walker

variable {p : Problem} {l : Ledger} {n : Nat} {o o' q : List Int} {s : State} {e e' : Entry}
  {w w' : Walker} {k : Int}

/-- An order of keys that a planner of a problem keeps. -/
def Kept (p : Problem) (o : List Int) : Prop :=
  GatedMaze.Kept p.legs p.start p.crew.homes? o

/-- The kept order `o` of keys leads into the state `s`, whose entry is `e`. -/
def Leads (p : Problem) (o : List Int) (s : State) (e : Entry) : Prop :=
  ∃ q w, o = q ++ [s.last] ∧ (∀ k ∈ o, k ∈ p.keys) ∧ p.Kept o ∧ p.along o = .ok w ∧
    w.held = s.held ∧ e = p.crew.entryOf q w

/-- **One order leads into a state**, so the state has one entry. -/
theorem Leads.unique (h : p.Leads o s e) (h' : p.Leads o' s e') : o = o' ∧ e = e' := by
  obtain ⟨q, w, rfl, -, hk, hw, hs, rfl⟩ := h
  obtain ⟨q', w', rfl, -, hk', hw', hs', rfl⟩ := h'
  have hp := (held_eq_iff_perm hw hw').1 (hs.trans hs'.symm)
  have he := hk.unique hk' hp (by simp)
  rw [he, hw', Except.ok.injEq] at hw
  subst hw
  obtain rfl : q = q' := (List.append_inj' he rfl).1
  exact ⟨rfl, rfl⟩

theorem Leads.size_eq (h : p.Leads o s e) : s.held.size = o.length := by
  obtain ⟨q, w, rfl, -, -, hw, hs, -⟩ := h
  rw [← hs, size_held hw]

theorem Leads.mem_last (h : p.Leads o s e) : s.last ∈ s.held.toList := by
  obtain ⟨q, w, rfl, -, -, hw, hs, -⟩ := h
  rw [← hs, mem_toList_held hw]; simp

theorem Leads.held_subset (h : p.Leads o s e) : ∀ k ∈ s.held.toList, k ∈ p.keys := by
  obtain ⟨q, w, rfl, hsub, -, hw, hs, -⟩ := h
  intro k hk
  rw [← hs, mem_toList_held hw] at hk
  exact hsub k hk

/-- There are no more keys in a kept order than in the problem. -/
theorem Leads.length_le (h : p.Leads o s e) : o.length ≤ p.keys.length := by
  obtain ⟨q, w, -, hsub, -, hw, -⟩ := h
  exact (nodup_of_along hw).length_le_of_subset hsub

/-- The ledger holds the entries of kept orders only, and all those of at most `n` keys. -/
structure Filled (p : Problem) (n : Nat) (l : Ledger) : Prop where
  sound : ∀ s e, l.get? s = some e → ∃ o, p.Leads o s e
  complete : ∀ o s e, p.Leads o s e → o.length ≤ n → l.get? s = some e

/-- A state that can be resolved when the levels up to `n` are filled. -/
structure Next (p : Problem) (n : Nat) (s : State) : Prop where
  last : s.last ∈ s.held.toList
  keys : ∀ k ∈ s.held.toList, k ∈ p.keys
  size : s.held.size ≤ n + 1

/-- A kept order of one key is any that can be fetched first. -/
theorem kept_singleton (hw : p.along [k] = .ok w) : p.Kept [k] := by
  have hw' : Walker.along p.legs p.start p.crew.homes? ([] ++ [k]) = .ok w := hw
  refine kept_append_iff.2 ⟨kept_nil, w, hw', fun q' w' _ hp hv => ?_⟩
  rw [List.perm_nil.1 hp, hw', Except.ok.injEq] at hv
  exact .inr ⟨by rw [hv], by rw [List.perm_nil.1 hp]⟩

/-- The keys held once `k` is fetched, and those before. -/
theorem held_of_next (h : p.next w k = .ok w') :
    w'.held = w.held.add k.toNat ∧ w'.held.drop k.toNat = w.held := by
  obtain ⟨hnew, hr, quadrant, leg, -, -, -, rfl⟩ := next_eq_ok_iff.1 h
  have hbit : w.held.mask.testBit k.toNat = false := by
    rw [← Bool.not_eq_true]
    intro hb
    rw [IdSet.contains_eq_true_iff.2 ⟨hr, hb⟩] at hnew
    cases hnew
  exact ⟨rfl, IdSet.drop_add hbit⟩

/-- The entry of an order that leads into a state, and the walker it stands for. -/
theorem Leads.exists_walker {j : Int} {rest : IdSet} (h : p.Leads q ⟨rest, j⟩ e) :
    ∃ w, p.along q = .ok w ∧ w.held = rest ∧ p.crew.prev q w = some (j, e) ∧
      q.getLast?.getD p.start = j ∧ ∀ x ∈ q, x ∈ p.keys := by
  obtain ⟨q₀, w, rfl, hsub, -, hw, hs, rfl⟩ := h
  exact ⟨w, hw, hs, by simp [Crew.prev], by simp, hsub⟩

/-- Kept orders of some keys lead into a state each. -/
theorem exists_leads (hk : p.Kept q) (hsub : ∀ x ∈ q, x ∈ p.keys) (hw : p.along q = .ok w)
    (hne : q ≠ []) : ∃ j e, q.getLast? = some j ∧ p.Leads q ⟨w.held, j⟩ e := by
  obtain ⟨q₀, j, rfl⟩ := (List.eq_nil_or_concat' q).resolve_left hne
  exact ⟨j, _, by simp, q₀, w, rfl, hsub, hk, hw, rfl, rfl⟩

/-- **How a kept order comes about**, when some keys were held before the last one: it extends a kept
order into a state without the last key, and no other such extension is preferred to it. -/
theorem leads_iff (hmem : s.last ∈ s.held.toList) (hkey : s.last ∈ p.keys)
    (hrest : s.held.drop s.last.toNat ≠ .empty) :
    p.Leads o s e ↔ ∃ q j prev w w', p.Leads q ⟨s.held.drop s.last.toNat, j⟩ prev ∧
      p.along q = .ok w ∧ p.next w s.last = .ok w' ∧ o = q ++ [s.last] ∧ e = p.crew.entryOf q w' ∧
      ∀ q' j' prev' v v', p.Leads q' ⟨s.held.drop s.last.toNat, j'⟩ prev' → p.along q' = .ok v →
        p.next v s.last = .ok v' → w'.walked < v'.walked ∨ w'.walked = v'.walked ∧ j ≤ j' := by
  constructor
  · rintro ⟨q, w', rfl, hsub, hkept, hw', hheld, rfl⟩
    obtain ⟨hq, _, hw'', hmin⟩ := kept_append_iff.1 hkept
    rw [← along, hw', Except.ok.injEq] at hw''
    subst hw''
    obtain ⟨w, hw, hnext⟩ := along_append_ok.1 hw'
    have hrestw : w.held = s.held.drop s.last.toNat := by rw [← hheld, (held_of_next hnext).2]
    have hne : q ≠ [] := by
      rintro rfl
      obtain rfl := along_nil_ok.1 hw
      exact hrest hrestw.symm
    obtain ⟨j, prev, hj, hlead⟩ :=
      exists_leads hq (fun x hx => hsub x (List.mem_append_left _ hx)) hw hne
    rw [hrestw] at hlead
    refine ⟨q, j, prev, w, w', hlead, hw, hnext, rfl, rfl, ?_⟩
    intro q' j' prev' v v' hlead' hv hv'
    obtain ⟨v₀, hv₀, hheld', -, hj', -⟩ := hlead'.exists_walker
    rw [hv, Except.ok.injEq] at hv₀
    subst hv₀
    obtain ⟨-, -, -, -, hkept', -⟩ := hlead'
    have hp : q'.Perm q := (held_eq_iff_perm hv hw).1 (hheld'.trans hrestw.symm)
    have := hmin q' v' hkept' hp (along_append_ok.2 ⟨v, hv, hv'⟩)
    rwa [hj', hj] at this
  · rintro ⟨q, j, prev, w, w', hlead, hw, hnext, rfl, rfl, hmin⟩
    obtain ⟨w₀, hw₀, hheld, -, hj, hsub⟩ := hlead.exists_walker
    rw [hw, Except.ok.injEq] at hw₀
    subst hw₀
    obtain ⟨q₀, -, hq₀, -, hkept, -⟩ := hlead
    have hw' : p.along (q ++ [s.last]) = .ok w' := along_append_ok.2 ⟨w, hw, hnext⟩
    refine ⟨q, w', rfl, ?_, kept_append_iff.2 ⟨hkept, w', hw', ?_⟩, hw', ?_, rfl⟩
    · intro x hx
      rcases List.mem_append.1 hx with hx | hx
      · exact hsub x hx
      · rw [List.mem_singleton.1 hx]; exact hkey
    · intro q' v' hkept' hp hv'
      obtain ⟨v, hv, hnextv⟩ := along_append_ok.1 hv'
      have hne : q' ≠ [] := by
        rintro rfl
        rw [List.nil_perm.1 hp] at hq₀
        simp at hq₀
      obtain ⟨j', prev', hj', hlead'⟩ :=
        exists_leads hkept' (fun x hx => hsub x (hp.mem_iff.1 hx)) hv hne
      rw [(held_eq_iff_perm hv hw).2 hp, hheld] at hlead'
      have := hmin q' j' prev' v v' hlead' hv hnextv
      rwa [hj, hj']
    · rw [(held_of_next hnext).1, hheld, IdSet.add_drop (IdSet.mem_toList.1 hmem).2]

/-- How a kept order of one key comes about. -/
theorem leads_iff_of_lone (hmem : s.last ∈ s.held.toList) (hkey : s.last ∈ p.keys)
    (hrest : s.held.drop s.last.toNat = .empty) :
    p.Leads o s e ↔ o = [s.last] ∧
      ∃ w, p.next (atStart p.start) s.last = .ok w ∧ e = p.crew.entryOf [] w := by
  constructor
  · rintro ⟨q, w', rfl, hsub, -, hw', hheld, rfl⟩
    obtain ⟨w, hw, hnext⟩ := along_append_ok.1 hw'
    have hempty : w.held = .empty := by rw [← hrest, ← hheld, (held_of_next hnext).2]
    obtain rfl : q = [] := by
      have := size_held hw
      rw [hempty, ← IdSet.length_toList, IdSet.toList_empty] at this
      exact List.length_eq_zero_iff.1 this.symm
    obtain rfl := along_nil_ok.1 hw
    exact ⟨rfl, w', hnext, rfl⟩
  · rintro ⟨rfl, w, hnext, rfl⟩
    have hw : p.along ([] ++ [s.last]) = .ok w := along_append_ok.2 ⟨_, along_nil, hnext⟩
    refine ⟨[], w, rfl, by simpa using hkey, kept_singleton hw, hw, ?_, rfl⟩
    have hadd := IdSet.add_drop (IdSet.mem_toList.1 hmem).2
    rw [hrest] at hadd
    rw [(held_of_next hnext).1, ← hadd]
    rfl

/-- The entry of an order that leads into the rest of a state is extended as the order is. -/
theorem Leads.transition_eq (hp : p.Fits) (hs : p.Next n s) {j : Int}
    (h : p.Leads q ⟨s.held.drop s.last.toNat, j⟩ e) : ∃ w, p.along q = .ok w ∧
      p.transition (s.held.drop s.last.toNat) (some (j, e)) s.last =
        .ok ((p.next w s.last).toOption.map (p.crew.entryOf q)) := by
  have hkey : s.last ∈ p.keys := hs.keys _ hs.last
  obtain ⟨w, hw, hheld, hprev, -, hsub⟩ := h.exists_walker
  have hnew : s.last ∉ q := by
    rw [← mem_toList_held hw, hheld, IdSet.mem_toList_drop]
    have := (hp.keys _ hkey).1.1
    omega
  exact ⟨w, hw, by rw [← hheld, ← hprev, Problem.transition_eq hp hw hsub hkey hnew]⟩

/-- Without its last key a state holds fewer keys. -/
theorem size_rest_lt (hp : p.Fits) (hs : p.Next n s) :
    (s.held.drop s.last.toNat).size < s.held.size := by
  apply IdSet.size_drop_lt
  rw [Int.toNat_of_nonneg (hp.range _ (hs.keys _ hs.last)).1]
  exact hs.last

theorem cheaper_eq : cheaper = cheaperBy Entry.cost := by
  funext a b; cases a <;> cases b <;> rfl

/-- The entry that a planner finds for the last key of `s` by way of the key `j`. -/
def found (p : Problem) (l : Ledger) (s : State) (j : Int) : Option Entry :=
  (l.get? ⟨s.held.drop s.last.toNat, j⟩).bind fun prev =>
    (p.transition (s.held.drop s.last.toNat) (some (j, prev)) s.last).toOption.join

/-- What is found by way of `j` extends the kept order that leads there. -/
theorem found_eq_some_iff (hp : p.Fits) (hl : p.Filled n l) (hs : p.Next n s) {j : Int} :
    p.found l s j = some e ↔ ∃ q prev w w', p.Leads q ⟨s.held.drop s.last.toNat, j⟩ prev ∧
      p.along q = .ok w ∧ p.next w s.last = .ok w' ∧ e = p.crew.entryOf q w' := by
  unfold found
  constructor
  · intro h
    obtain ⟨prev, hget, h⟩ := Option.bind_eq_some_iff.1 h
    obtain ⟨q, hlead⟩ := hl.sound _ _ hget
    obtain ⟨w, hw, ht⟩ := hlead.transition_eq hp hs
    rw [ht] at h
    cases hn : p.next w s.last with
    | error x => rw [hn] at h; cases h
    | ok w' =>
      rw [hn] at h
      exact ⟨q, prev, w, w', hlead, hw, hn, (Option.some.inj h).symm⟩
  · rintro ⟨q, prev, w, w', hlead, hw, hnext, rfl⟩
    obtain ⟨w₀, hw₀, ht⟩ := hlead.transition_eq hp hs
    rw [hw, Except.ok.injEq] at hw₀
    subst hw₀
    have hlen : q.length ≤ n := by
      have hlt := size_rest_lt hp hs
      have hsize := hlead.size_eq
      have := hs.size
      simp only at hsize
      omega
    rw [hl.complete q _ _ hlead hlen, Option.bind_some, ht, hnext]
    rfl

/-- A state of one key is resolved by fetching this key first. -/
theorem resolve_of_lone (hp : p.Fits) (hs : p.Next n s)
    (hrest : s.held.drop s.last.toNat = .empty) :
    p.resolve l s.held s.last =
      .ok ((p.next (atStart p.start) s.last).toOption.map (p.crew.entryOf [])) := by
  have hkey : s.last ∈ p.keys := hs.keys _ hs.last
  have ht := transition_eq (q := []) hp along_nil (by simp) hkey (by simp)
  unfold resolve
  rw [IdSet.erase_eq (hp.range _ hkey)]
  simp only [bind, Except.bind]
  rw [if_pos (IdSet.isEmpty_iff.2 hrest), hrest]
  exact ht

/-- A state of more keys is resolved to the cheapest entry found by way of the keys before the last.
No step of the fold fails. -/
theorem resolve_eq_foldl (hp : p.Fits) (hl : p.Filled n l) (hs : p.Next n s)
    (hrest : s.held.drop s.last.toNat ≠ .empty) :
    p.resolve l s.held s.last = .ok ((s.held.drop s.last.toNat).toList.foldl
      (fun b j => cheaperBy Entry.cost b (p.found l s j)) none) := by
  unfold resolve
  rw [IdSet.erase_eq (hp.range _ (hs.keys _ hs.last))]
  simp only [bind, Except.bind]
  rw [if_neg fun h => hrest (IdSet.isEmpty_iff.1 h)]
  refine foldlM_ok_of_forall none fun b j hj => ?_
  cases hget : l.get? ⟨s.held.drop s.last.toNat, j⟩ with
  | none => cases b <;> simp [found, hget, cheaperBy]
  | some prev =>
    obtain ⟨q, hlead⟩ := hl.sound _ _ hget
    obtain ⟨w, -, ht⟩ := hlead.transition_eq hp hs
    simp only [found, hget, Option.bind_some, ht, Except.map, cheaper_eq]
    rfl

/-- **A state is resolved to the entry of the kept order that leads into it**, if there is one. -/
theorem resolve_spec (hp : p.Fits) (hl : p.Filled n l) (hs : p.Next n s) :
    ∃ r, p.resolve l s.held s.last = .ok r ∧ ∀ e, r = some e ↔ ∃ o, p.Leads o s e := by
  have hkey : s.last ∈ p.keys := hs.keys _ hs.last
  by_cases hrest : s.held.drop s.last.toNat = .empty
  · refine ⟨_, resolve_of_lone hp hs hrest, fun e => ?_⟩
    simp only [leads_iff_of_lone hs.last hkey hrest, exists_eq_left]
    cases p.next (atStart p.start) s.last <;> simp [Except.toOption, eq_comm]
  · refine ⟨_, resolve_eq_foldl hp hl hs hrest, fun e => ?_⟩
    rcases foldl_cheaper Entry.cost (IdSet.pairwise_toList _) (p.found l s) with
      ⟨hr, hnone⟩ | ⟨j, hj, b, hb, hr, hmin⟩
    · rw [hr]
      simp only [reduceCtorEq, false_iff]
      rintro ⟨o, hlead⟩
      obtain ⟨q, j, prev, w, w', hq, hw, hnext, -, -, -⟩ := (leads_iff hs.last hkey hrest).1 hlead
      have := (found_eq_some_iff hp hl hs).2 ⟨q, prev, w, w', hq, hw, hnext, rfl⟩
      rw [hnone j hq.mem_last] at this
      cases this
    · rw [hr, Option.some.injEq]
      obtain ⟨q, prev, w, w', hq, hw, hnext, rfl⟩ := (found_eq_some_iff hp hl hs).1 hb
      have hlead : p.Leads (q ++ [s.last]) s (p.crew.entryOf q w') := by
        refine (leads_iff hs.last hkey hrest).2
          ⟨q, j, prev, w, w', hq, hw, hnext, rfl, rfl, fun q' j' prev' v v' hq' hv hv' => ?_⟩
        exact hmin j' hq'.mem_last _
          ((found_eq_some_iff hp hl hs).2 ⟨q', prev', v, v', hq', hv, hv', rfl⟩)
      constructor
      · rintro rfl; exact ⟨_, hlead⟩
      · rintro ⟨o, ho⟩; exact (hlead.unique ho).2

end GatedMaze.Problem
