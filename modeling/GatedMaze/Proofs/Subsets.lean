import GatedMaze.Planner.Subsets
import GatedMaze.Proofs.Orders
import Mathlib.Data.List.Dedup
import Mathlib.Data.List.Sublists

/-!
# Which subsets are enumerated

* `extend_eq`: an enumeration yields one set for each way to choose so many places of the pool.
* `mem_subsetsOfSize_of_perm`: every set of so many distinct ids of the pool is enumerated.
* `subset_of_mem_subsetsOfSize`: an enumerated set holds ids of the pool only, and no more than asked for.
* `map_toList_subsetsOfSize`, `size_of_mem_subsetsOfSize`, `nodup_subsetsOfSize`: of distinct ids each set of
  so many is enumerated once.
-/

namespace GatedMaze

namespace Enumeration

/-- **An enumeration yields one set for each way to choose so many places of the pool**, in the reverse of
the order in which the library lists these choices. -/
theorem extend_eq {pool : List Int} (h : IdSet.InRange pool) (chosen : IdSet) (n : Nat) :
    extend none pool chosen n = ⟨(pool.sublistsLen n).reverse.map chosen.addAll, none⟩ := by
  induction pool generalizing chosen n with
  | nil =>
    cases n with
    | zero => exact extend_zero none [] chosen
    | succ n => exact extend_nil none chosen n
  | cons i pool ih =>
    obtain ⟨hi, hpool⟩ := List.forall_mem_cons.1 h
    cases n with
    | zero =>
      rw [List.sublistsLen_zero]
      exact extend_zero none (i :: pool) chosen
    | succ n =>
      rw [extend_cons]
      by_cases hshort : pool.length < n
      · rw [if_pos hshort, List.sublistsLen_of_length_lt (by rw [List.length_cons]; omega)]
        rfl
      · -- the sets with the first id come before those without it
        rw [if_neg hshort, IdSet.insert_eq_ok_iff.2 ⟨hi, rfl⟩]
        simp only
        rw [ih hpool, ih hpool, List.sublistsLen_succ_cons, List.reverse_append, ← List.map_reverse,
          List.map_append, List.map_map]
        rfl

theorem inRange_mergeSort {ids : List Int} (h : IdSet.InRange ids) :
    IdSet.InRange (ids.mergeSort fun a b => a ≤ b) :=
  fun i hi => h i (List.mem_mergeSort.1 hi)

end Enumeration

open Enumeration

variable {ids : List Int} {n : Nat} {s : IdSet}

theorem subsetsOfSize_eq (h : IdSet.InRange ids) (n : Nat) : subsetsOfSize ids n =
    ⟨((ids.mergeSort fun a b => a ≤ b).sublistsLen n).reverse.map IdSet.empty.addAll, none⟩ :=
  extend_eq (inRange_mergeSort h) .empty n

theorem fault_subsetsOfSize (h : IdSet.InRange ids) : (subsetsOfSize ids n).fault = none := by
  rw [subsetsOfSize_eq h]

theorem mem_subsetsOfSize_iff (h : IdSet.InRange ids) : s ∈ (subsetsOfSize ids n).subsets ↔
    ∃ sub : List Int, sub.Sublist (ids.mergeSort fun a b => a ≤ b) ∧ sub.length = n ∧
      s = IdSet.empty.addAll sub := by
  rw [subsetsOfSize_eq h]
  simp only [List.mem_map, List.mem_reverse, List.mem_sublistsLen, and_assoc, eq_comm (a := s)]

/-- **An enumerated set holds ids of the pool only**, and no more of them than asked for. -/
theorem subset_of_mem_subsetsOfSize (h : IdSet.InRange ids) (hs : s ∈ (subsetsOfSize ids n).subsets) :
    (∀ k ∈ s.toList, k ∈ ids) ∧ s.size ≤ n := by
  obtain ⟨sub, hsub, hlen, rfl⟩ := (mem_subsetsOfSize_iff h).1 hs
  have hr : IdSet.InRange sub := fun i hi => inRange_mergeSort h i (hsub.subset hi)
  refine ⟨fun k hk => ?_, ?_⟩
  · exact List.mem_mergeSort.1 (hsub.subset ((IdSet.mem_addAll_empty hr).1 hk))
  · rw [← IdSet.length_toList, ← hlen]
    exact (IdSet.nodup_toList _).length_le_of_subset fun k hk => (IdSet.mem_addAll_empty hr).1 hk

/-- **Every set of so many distinct ids of the pool is enumerated.** -/
theorem mem_subsetsOfSize_of_perm (h : IdSet.InRange ids) {o : List Int} (hsub : ∀ k ∈ o, k ∈ ids)
    (hp : s.toList.Perm o) : s ∈ (subsetsOfSize ids o.length).subsets := by
  set pool := ids.mergeSort fun a b => a ≤ b with hpool
  have hnd : o.Nodup := hp.nodup_iff.1 s.nodup_toList
  -- of each id in `o` its last place in the pool is chosen
  set sub := pool.dedup.filter (· ∈ o) with hsubdef
  have hmem : ∀ k, k ∈ sub ↔ k ∈ o := by
    intro k
    simp only [hsubdef, List.mem_filter, List.mem_dedup, decide_eq_true_eq, and_iff_right_iff_imp]
    intro hk; exact List.mem_mergeSort.2 (hsub k hk)
  have hperm : sub.Perm o :=
    (List.perm_ext_iff_of_nodup ((List.nodup_dedup pool).filter _) hnd).2 hmem
  refine (mem_subsetsOfSize_iff h).2
    ⟨sub, List.filter_sublist.trans (List.dedup_sublist pool), hperm.length_eq, ?_⟩
  apply IdSet.ext_testBit
  intro i
  have hr : IdSet.InRange sub := fun k hk => h k (hsub k ((hmem k).1 hk))
  have hi := (IdSet.mem_addAll_empty hr (k := (i : Int))).trans ((hmem i).trans hp.mem_iff.symm)
  simp only [IdSet.mem_toList, Int.natCast_nonneg, true_and, Int.toNat_natCast] at hi
  exact Bool.eq_iff_iff.2 hi.symm

/-- **Distinct ids are listed as they were chosen**, so no two choices make the same set. -/
theorem map_toList_subsetsOfSize (h : IdSet.InRange ids) (hnodup : ids.Nodup) (n : Nat) :
    (subsetsOfSize ids n).subsets.map IdSet.toList =
      ((ids.mergeSort fun a b => a ≤ b).sublistsLen n).reverse := by
  have hin := inRange_mergeSort h
  rw [subsetsOfSize_eq h, List.map_map]
  refine (List.map_congr_left fun sub hsub => ?_).trans (List.map_id _)
  have hsub := (List.mem_sublistsLen.1 (List.mem_reverse.1 hsub)).1
  exact IdSet.toList_addAll_empty (fun i hi => hin i (hsub.subset hi))
    ((IdSet.pairwise_lt_mergeSort hnodup).sublist hsub)

/-- An enumerated set of distinct ids has as many as asked for. -/
theorem size_of_mem_subsetsOfSize (h : IdSet.InRange ids) (hnodup : ids.Nodup)
    (hs : s ∈ (subsetsOfSize ids n).subsets) : s.size = n := by
  have hmem := List.mem_map_of_mem (f := IdSet.toList) hs
  rw [map_toList_subsetsOfSize h hnodup, List.mem_reverse, List.mem_sublistsLen] at hmem
  rw [← IdSet.length_toList, hmem.2]

end GatedMaze
