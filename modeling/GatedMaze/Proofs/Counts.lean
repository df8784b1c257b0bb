import GatedMaze.Proofs.Plans
import Mathlib.Data.Set.Card

/-!
# How many states have an entry

A ledger lists the states of each shelf as they come, so its size is read off these lists. Each state is
listed once, on the shelf of as many keys as it holds, and a plan counts the states into which a kept
order leads.

* `shelf_put`, `Tidy.put`: a write changes one shelf, and lists a new state once.
* `Tidy.size_eq`: the size of a ledger is the number of states with an entry.
* `fillLevels_invariant`: what every write keeps, a search keeps.
* `states_of_solve`: a plan counts the states into which kept orders lead.
-/

namespace GatedMaze

variable {l : Ledger} {s : State} {e : Entry} {n : Nat}

/-- Every shelf lists the states that have an entry on it, each once, and they hold as many keys as the
shelf is for. -/
structure Ledger.Tidy (l : Ledger) : Prop where
  nodup : ∀ (n : Nat) (shelf : Shelf), l.shelves[n]? = some shelf → shelf.order.Nodup
  listed : ∀ (n : Nat) (shelf : Shelf), l.shelves[n]? = some shelf →
    ∀ s : State, s ∈ shelf.order ↔ s.held.size = n ∧ (shelf.get? s).isSome

namespace Ledger

theorem tidy_empty : Tidy .empty where
  nodup := by
    intro n shelf h
    simp [empty] at h
  listed := by
    intro n shelf h
    simp [empty] at h

/-- The shelf for so many keys, which is empty as long as it is not used. -/
def shelf (l : Ledger) (n : Nat) : Shelf := l.shelves[n]?.getD .empty

theorem get?_eq (l : Ledger) (s : State) : l.get? s = (l.shelf s.held.size).get? s := by
  rw [Ledger.get?, shelf]
  cases l.shelves[s.held.size]? <;> simp [Shelf.empty, Shelf.get?]

/-- A write that is taken changes the shelf of its state. -/
theorem shelf_put : (l.put s e).1.shelf n =
    if l.accepts s e = true ∧ s.held.size = n then (l.shelf n).replace s e else l.shelf n := by
  unfold Ledger.put
  split
  · next ha =>
    simp only [shelf, Std.TreeMap.getElem?_insert, Std.compare_eq_iff_eq, ha, true_and]
    split
    · next hn =>
      subst hn
      rfl
    · rfl
  · next ha => rw [if_neg fun h => ha h.1]

theorem tidy_iff : l.Tidy ↔ ∀ n, (l.shelf n).order.Nodup ∧
    ∀ s : State, s ∈ (l.shelf n).order ↔ s.held.size = n ∧ (l.get? s).isSome := by
  constructor
  · intro hl n
    rw [shelf]
    cases h : l.shelves[n]? with
    | none =>
      refine ⟨List.nodup_nil, fun s => ⟨fun hs => absurd hs List.not_mem_nil, ?_⟩⟩
      rintro ⟨rfl, hs⟩
      rw [Ledger.get?, h] at hs
      exact absurd hs Bool.false_ne_true
    | some shelf =>
      refine ⟨hl.nodup n shelf h, fun s => (hl.listed n shelf h s).trans (and_congr_right ?_)⟩
      rintro rfl
      rw [Ledger.get?, h, Option.bind_some]
  · intro hl
    have hshelf : ∀ n shelf, l.shelves[n]? = some shelf → l.shelf n = shelf := fun n shelf h => by
      rw [Ledger.shelf, h, Option.getD_some]
    refine ⟨fun n shelf h => hshelf n shelf h ▸ (hl n).1, fun n shelf h s => ?_⟩
    rw [← hshelf n shelf h, (hl n).2]
    refine and_congr_right ?_
    rintro rfl
    rw [get?_eq]

/-- **A write lists a new state once.** -/
theorem Tidy.put (hl : l.Tidy) (s : State) (e : Entry) : (l.put s e).1.Tidy := by
  refine tidy_iff.2 fun n => ?_
  obtain ⟨hnodup, hlisted⟩ := tidy_iff.1 hl n
  have hsome : ∀ t : State, ((l.put s e).1.get? t).isSome ↔
      s = t ∧ l.accepts s e = true ∨ (l.get? t).isSome := by
    intro t
    rw [get?_put]
    split
    · next h => exact iff_of_true rfl (.inl h)
    · next h => exact (or_iff_right h).symm
  rw [shelf_put]
  split
  · next h =>
    obtain ⟨ha, rfl⟩ := h
    rw [Shelf.replace, ← get?_eq]
    split
    · next hs =>
      refine ⟨hnodup, fun t => ?_⟩
      rw [hlisted, hsome]
      refine and_congr_right fun _ => ⟨.inr, ?_⟩
      rintro (⟨rfl, -⟩ | ht)
      · exact hs
      · exact ht
    · next hnew =>
      refine ⟨List.nodup_cons.2 ⟨fun hmem => hnew ((hlisted s).1 hmem).2, hnodup⟩, fun t => ?_⟩
      rw [List.mem_cons, hlisted, hsome]
      by_cases hst : s = t
      · subst hst
        simp [ha]
      · simp [hst, Ne.symm hst]
  · next h =>
    refine ⟨hnodup, fun t => ?_⟩
    rw [hlisted, hsome]
    refine and_congr_right fun hn => ⟨.inr, ?_⟩
    rintro (⟨rfl, ha⟩ | ht)
    · exact absurd ⟨ha, hn⟩ h
    · exact ht

/-- **The size of a ledger is the number of states with an entry.** -/
theorem Tidy.size_eq (hl : l.Tidy) : l.size = {s | (l.get? s).isSome}.ncard := by
  set states := l.shelves.toList.flatMap fun v => v.2.order with hstates
  have hshelf : ∀ v ∈ l.shelves.toList, l.shelves[v.1]? = some v.2 := fun v hv =>
    Std.TreeMap.mem_toList_iff_getElem?_eq_some.1 hv
  have hnodup : states.Nodup := by
    refine List.nodup_flatMap.2 ⟨fun v hv => hl.nodup v.1 v.2 (hshelf v hv), ?_⟩
    refine Std.TreeMap.distinct_keys_toList.imp_of_mem fun {v w} hv hw hne s hs hs' => ?_
    have hsv := ((hl.listed v.1 v.2 (hshelf v hv) s).1 hs).1
    have hsw := ((hl.listed w.1 w.2 (hshelf w hw) s).1 hs').1
    exact hne (Std.compare_eq_iff_eq.2 (hsv.symm.trans hsw))
  have hmem : {s | (l.get? s).isSome} = (states.toFinset : Set State) := by
    ext s
    rw [List.coe_toFinset, Set.mem_ofPred_eq, Set.mem_ofPred_eq, hstates, List.mem_flatMap]
    constructor
    · intro h
      rw [Ledger.get?] at h
      cases hs : l.shelves[s.held.size]? with
      | none => simp [hs] at h
      | some shelf =>
        rw [hs] at h
        exact ⟨(s.held.size, shelf), Std.TreeMap.mem_toList_iff_getElem?_eq_some.2 hs,
          (hl.listed _ _ hs s).2 ⟨rfl, h⟩⟩
    · rintro ⟨v, hv, hmem⟩
      obtain ⟨hsize, hsome⟩ := (hl.listed v.1 v.2 (hshelf v hv) s).1 hmem
      rw [Ledger.get?, hsize, hshelf v hv]
      exact hsome
  rw [hmem, Set.ncard_coe_finset, List.toFinset_card_of_nodup hnodup]
  rfl

end Ledger

namespace Problem

variable {p : Problem}

section Invariant

variable {P : Ledger → Prop}

theorem fillStates_invariant (hput : ∀ l s e, P l → P (l.put s e).1) (states : List State) (n : Nat)
    (hl : P l) : P (p.fillStates states n l).1 := by
  induction states generalizing n l with
  | nil => exact hl
  | cons s states ih =>
    rw [fillStates]
    split
    · exact hl
    · exact ih n hl
    · exact ih (n + 1) (hput l s _ hl)

theorem fillLevel_invariant (hput : ∀ l s e, P l → P (l.put s e).1) (size : Nat) (hl : P l) :
    P (p.fillLevel size l).1 := by
  have hfill := fillStates_invariant (p := p) hput
    ((subsetsOfSize p.keys size).subsets.flatMap statesOf) 0 hl
  rw [fillLevel]
  split
  · next h _ =>
    rw [h] at hfill
    exact hfill
  · exact hfill

/-- **What every write keeps, a search keeps.** -/
theorem fillLevels_invariant (hput : ∀ l s e, P l → P (l.put s e).1) (sizes : List Nat) (hl : P l) :
    P (p.fillLevels sizes l).ledger := by
  induction sizes generalizing l with
  | nil => exact hl
  | cons size sizes ih =>
    have hlevel := fillLevel_invariant (p := p) hput size hl
    rw [fillLevels]
    split
    · next h =>
      rw [h] at hlevel
      exact hlevel
    · next h =>
      rw [h] at hlevel
      simp only
      split
      · exact hlevel
      · exact ih hlevel

end Invariant

theorem states_of_conclude {w : Planner} {plan : Plan} (h : w.conclude = .ok plan) :
    plan.states = w.ledger.size := by
  obtain ⟨full, -, h⟩ := bind_ok_iff.1 h
  split at h
  · cases h
  · obtain rfl := Except.ok.inj h
    rfl

/-- **A plan counts the states into which kept orders lead.** -/
theorem states_of_solve (hp : p.Fits) {keep : Bool} {plan : Plan}
    (h : ((Planner.ofProblem p).solve keep).2.outcome = .ok plan) :
    plan.states = {s | ∃ o e, p.Leads o s e}.ncard := by
  unfold Planner.solve Planner.ofProblem at h
  by_cases hlen : p.keys.length = 0
  · rw [if_pos hlen] at h
    obtain rfl := Except.ok.inj h
    have hnone : {s | ∃ o e, p.Leads o s e} = ∅ := by
      refine Set.eq_empty_iff_forall_notMem.2 ?_
      rintro s ⟨o, e, hlead⟩
      have hkey := hlead.held_subset _ hlead.mem_last
      rw [List.length_eq_zero_iff.1 hlen] at hkey
      cases hkey
    rw [hnone, Set.ncard_empty]
    rfl
  · rw [if_neg hlen] at h
    obtain ⟨hout, hfill⟩ := fillLevels_spec hp p.keys.length (filled_empty (p := p))
    rw [Nat.zero_add] at hout hfill
    have htidy : (p.fillLevels (List.range' 1 p.keys.length) .empty).ledger.Tidy :=
      fillLevels_invariant (P := Ledger.Tidy) (fun l s e hl => hl.put s e) _ Ledger.tidy_empty
    simp only [hout] at h
    have hconclude : Planner.conclude
        ⟨p, (p.fillLevels (List.range' 1 p.keys.length) .empty).ledger⟩ = .ok plan := by
      revert h
      cases Planner.conclude ⟨p, (p.fillLevels (List.range' 1 p.keys.length) .empty).ledger⟩ with
      | error e => exact fun h => by cases h
      | ok plan' => exact id
    have hstates : {s | ∃ o e, p.Leads o s e} =
        {s | ((p.fillLevels (List.range' 1 p.keys.length) .empty).ledger.get? s).isSome} := by
      ext s
      exact (isSome_get?_iff hfill fun o e hlead => hfill.complete o s e hlead hlead.length_le).symm
    rw [states_of_conclude hconclude, htidy.size_eq, hstates]

end Problem

end GatedMaze
