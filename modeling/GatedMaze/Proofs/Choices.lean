import GatedMaze.Proofs.Subsets
import Mathlib

/-!
# The subsets of a size, in order

An enumeration of subsets goes through the choices of so many places among the sorted ids, in lexicographic
order, and yields the set of the ids at these places. An id that is given twice has two places, so sets can
come more than once; distinct ids give every set of so many of them once. One for a negative size takes in id
after id, one inside the other, until none is left, and fails there.

Where the number of enumerations that can be open inside one another is limited, a set needs one for each of its
members. Within the limit nothing changes; beyond it there is no first set.

* `sorted_sublistsLen`: the choices from a sorted list in lexicographic order.
* `choices_subsetsOfSize`, `distinct_subsetsOfSize`: the sets that are found.
* `extend_of_neg`: a negative size.
* `subsetsOfSize_enumerates`: the enumeration for any size.
* `extend_within`, `subsetsWithin_eq`: what a limit does.
-/

namespace GatedMaze

open Enumeration

/-- A choice of `n` places out of `len`, in ascending order. -/
structure Choice (len n : Nat) (c : List Nat) : Prop where
  ascends : c.Pairwise (· < ·)
  length_eq : c.length = n
  lt_len : ∀ i ∈ c, i < len

/-- The list of all choices of `n` places out of `len` in lexicographic order, each of them once. -/
structure AllChoices (len n : Nat) (cs : List (List Nat)) : Prop where
  mem_iff : ∀ c, c ∈ cs ↔ Choice len n c
  sorted : cs.Pairwise (List.Lex (· < ·))

/-- What an enumeration of the sets of `n` of some ids yields. -/
structure Enumerates (ids : List Int) (n : Nat) (found : List IdSet) : Prop where
  /-- There is one set for each choice of places: that of the ids which the sorted ids have there. -/
  choices : ∃ cs, AllChoices ids.length n cs ∧ List.Forall₂ (fun c s => ∀ k, k ∈ s.toList ↔
    ∃ i ∈ c, (ids.mergeSort fun a b => a ≤ b)[i]? = some k) cs found
  /-- Of distinct ids every set with `n` members comes, once, in the order of their listed members. -/
  distinct : ids.Nodup → (∀ s, s ∈ found ↔ s.size = n ∧ ∀ k ∈ s.toList, k ∈ ids) ∧
    (found.map IdSet.toList).Pairwise (List.Lex (· < ·))
  /-- Of fewer ids than `n` there is none. -/
  none : ids.length < n → found = []

variable {ids : List Int} {n : Nat}

/-! ## Choices of places -/

theorem sublistsLen_map {α β : Type} (f : α → β) (n : Nat) (l : List α) :
    (l.map f).sublistsLen n = (l.sublistsLen n).map (List.map f) := by
  induction l generalizing n with
  | nil => cases n <;> rfl
  | cons a l ih =>
    cases n with
    | zero => simp only [List.sublistsLen_zero, List.map_cons, List.map_nil]
    | succ n =>
      rw [List.map_cons, List.sublistsLen_succ_cons, List.sublistsLen_succ_cons, ih, ih,
        List.map_append, List.map_map, List.map_map]
      rfl

/-- The choices from a list are those of its places. -/
theorem sublistsLen_eq_map_range (l : List Int) (n : Nat) :
    l.sublistsLen n =
      ((List.range l.length).sublistsLen n).map fun c => c.map fun i => l.getD i 0 := by
  have hl : l = (List.range l.length).map fun i => l.getD i 0 := by
    refine List.ext_getElem (by simp) fun i hi _ => ?_
    simp [List.getD_eq_getElem?_getD, hi]
  conv_lhs => rw [hl, sublistsLen_map]

/-- **Choices from a sorted list come in lexicographic order**, read from the end of the library's list. -/
theorem sorted_sublistsLen {α : Type} {r : α → α → Prop} {l : List α} (h : l.Pairwise r) (n : Nat) :
    (l.sublistsLen n).reverse.Pairwise (List.Lex r) := by
  induction l generalizing n with
  | nil => cases n <;> simp
  | cons a l ih =>
    obtain ⟨ha, hl⟩ := List.pairwise_cons.1 h
    cases n with
    | zero => simp
    | succ n =>
      rw [List.sublistsLen_succ_cons, List.reverse_append, ← List.map_reverse]
      refine List.pairwise_append.2 ⟨?_, ih hl (n + 1), fun c hc d hd => ?_⟩
      · exact List.pairwise_map.2 ((ih hl n).imp List.Lex.cons)
      · -- a choice with the first member comes before one without it
        obtain ⟨c, -, rfl⟩ := List.mem_map.1 hc
        obtain ⟨hsub, hlen⟩ := List.mem_sublistsLen.1 (List.mem_reverse.1 hd)
        obtain ⟨e, d, rfl⟩ := List.exists_cons_of_length_eq_add_one hlen
        exact .rel (ha e (hsub.subset List.mem_cons_self))

theorem sublist_range_iff {c : List Nat} {len : Nat} :
    c.Sublist (List.range len) ↔ c.Pairwise (· < ·) ∧ ∀ i ∈ c, i < len := by
  constructor
  · intro h
    exact ⟨List.pairwise_lt_range.sublist h, fun i hi => List.mem_range.1 (h.subset hi)⟩
  · rintro ⟨hsorted, hlt⟩
    have hsub : c ⊆ List.range len := fun i hi => List.mem_range.2 (hlt i hi)
    exact List.sublist_of_subperm_of_pairwise (List.subperm_of_subset hsorted.nodup hsub) hsorted
      List.pairwise_lt_range

theorem allChoices (len n : Nat) : AllChoices len n ((List.range len).sublistsLen n).reverse where
  mem_iff c := by
    rw [List.mem_reverse, List.mem_sublistsLen, sublist_range_iff]
    exact ⟨fun ⟨⟨hs, hlt⟩, hlen⟩ => ⟨hs, hlen, hlt⟩, fun h => ⟨⟨h.ascends, h.lt_len⟩, h.length_eq⟩⟩
  sorted := sorted_sublistsLen List.pairwise_lt_range n

/-! ## Sets of chosen ids -/

/-- **There is one set for each choice of places.** -/
theorem choices_subsetsOfSize (h : IdSet.InRange ids) (n : Nat) : ∃ cs, AllChoices ids.length n cs ∧
    List.Forall₂ (fun c s => ∀ k, k ∈ s.toList ↔
      ∃ i ∈ c, (ids.mergeSort fun a b => a ≤ b)[i]? = some k) cs (subsetsOfSize ids n).subsets := by
  have hin := inRange_mergeSort h
  have hlen : (ids.mergeSort fun a b => a ≤ b).length = ids.length := List.length_mergeSort ids
  rw [subsetsOfSize_eq h, sublistsLen_eq_map_range, hlen, ← List.map_reverse, List.map_map]
  refine ⟨_, allChoices ids.length n, ?_⟩
  rw [List.forall₂_map_right_iff, List.forall₂_same]
  intro c hc k
  have hget : ∀ i ∈ c, (ids.mergeSort fun a b => a ≤ b)[i]? =
      some ((ids.mergeSort fun a b => a ≤ b).getD i 0) := fun i hi => by
    have hlt := (((allChoices ids.length n).mem_iff c).1 hc).lt_len i hi
    simp [List.getD_eq_getElem?_getD, hlen, hlt]
  have hr : IdSet.InRange (c.map fun i => (ids.mergeSort fun a b => a ≤ b).getD i 0) := fun j hj => by
    obtain ⟨i, hi, rfl⟩ := List.mem_map.1 hj
    exact hin _ (List.mem_of_getElem? (hget i hi))
  rw [Function.comp_apply, IdSet.mem_addAll_empty hr, List.mem_map]
  exact exists_congr fun i => and_congr_right fun hi => by rw [hget i hi, Option.some.injEq]

/-- **Of distinct ids every set of so many comes**, in the order of their listed members. -/
theorem distinct_subsetsOfSize (h : IdSet.InRange ids) (hnodup : ids.Nodup) (n : Nat) :
    (∀ s, s ∈ (subsetsOfSize ids n).subsets ↔ s.size = n ∧ ∀ k ∈ s.toList, k ∈ ids) ∧
      ((subsetsOfSize ids n).subsets.map IdSet.toList).Pairwise (List.Lex (· < ·)) := by
  constructor
  · intro s
    constructor
    · intro hs
      exact ⟨size_of_mem_subsetsOfSize h hnodup hs, (subset_of_mem_subsetsOfSize h hs).1⟩
    · rintro ⟨rfl, hsub⟩
      rw [← IdSet.length_toList]
      exact mem_subsetsOfSize_of_perm h hsub (List.Perm.refl _)
  · rw [map_toList_subsetsOfSize h hnodup]
    exact sorted_sublistsLen (IdSet.pairwise_lt_mergeSort hnodup) n

theorem enumerates_subsets (h : IdSet.InRange ids) (n : Nat) :
    Enumerates ids n (subsetsOfSize ids n).subsets where
  choices := choices_subsetsOfSize h n
  distinct hnodup := distinct_subsetsOfSize h hnodup n
  none hlt := by
    rw [subsetsOfSize_eq h, List.sublistsLen_of_length_lt (by rwa [List.length_mergeSort])]
    rfl

/-- **An enumeration for a negative size** never finds it reached, and comes to the end of the pool. -/
theorem extend_of_neg {pool : List Int} (h : IdSet.InRange pool) (chosen : IdSet) {size : Int}
    (hs : size < 0) : extend none pool chosen size = ⟨[], some .placeOutsideList⟩ := by
  induction pool generalizing chosen size with
  | nil => rw [extend, if_neg (by omega), if_neg (by rw [List.length_nil]; omega)]
  | cons i pool ih =>
    obtain ⟨hi, hpool⟩ := List.forall_mem_cons.1 h
    rw [extend_of_insert none (IdSet.insert_eq_ok_iff.2 ⟨hi, rfl⟩) (by omega) (by omega)]
    simp only [opened?]
    -- what is opened for the first id fails, and nothing comes after a failure
    rw [ih hpool _ (by omega)]
    rfl

/-- **The subsets of a size, in order.** For each choice of so many places among the sorted ids there is the set
of the ids there, and distinct ids give each set once, in lexicographic order. An enumeration for a negative
size fails before it yields anything. -/
theorem subsetsOfSize_enumerates (h : IdSet.InRange ids) :
    (∀ n : Nat, ∃ found, subsetsOfSize ids n = ⟨found, none⟩ ∧ Enumerates ids n found) ∧
    ∀ size : Int, size < 0 → subsetsOfSize ids size = ⟨[], some .placeOutsideList⟩ := by
  constructor
  · intro n
    have hok : subsetsOfSize ids n = ⟨(subsetsOfSize ids n).subsets, none⟩ := by
      rw [subsetsOfSize_eq h]
    exact ⟨_, hok, enumerates_subsets h n⟩
  · intro size hs
    exact extend_of_neg (inRange_mergeSort h) .empty hs

/-- An id that is given twice counts twice: it makes the sets `{1}`, `{1, 3}` and `{1, 3}` of two places. -/
theorem subsetsOfSize_enumerates_repeated : IdSet.InRange [3, 1, 1] ∧
    subsetsOfSize [3, 1, 1] 2 = ⟨[⟨2⟩, ⟨10⟩, ⟨10⟩], none⟩ ∧ Enumerates [3, 1, 1] 2 [⟨2⟩, ⟨10⟩, ⟨10⟩] ∧
    subsetsOfSize [3, 1, 1] (-1) = ⟨[], some .placeOutsideList⟩ := by
  have hin : IdSet.InRange [3, 1, 1] := by unfold IdSet.InRange; decide
  have hfound : subsetsOfSize [3, 1, 1] 2 = ⟨[⟨2⟩, ⟨10⟩, ⟨10⟩], none⟩ := by cbv
  obtain ⟨hall, hneg⟩ := subsetsOfSize_enumerates hin
  obtain ⟨found, heq, henum⟩ := hall 2
  obtain rfl : found = [⟨2⟩, ⟨10⟩, ⟨10⟩] :=
    congrArg Enumeration.subsets (heq.symm.trans hfound)
  exact ⟨hin, hfound, henum, hneg (-1) (by decide)⟩

/-! ## A limit -/

/-- How many enumerations are opened inside one another on the way to the first set: one for each of its
members, or for each id when the size is negative. -/
def Enumeration.depth (len : Nat) (size : Int) : Int := if size < 0 then len else size

/-- **A limit does not show, or ends the enumeration before the first set.** -/
theorem extend_within {pool : List Int} (h : IdSet.InRange pool) (room : Nat) (chosen : IdSet)
    (size : Int) : extend (some room) pool chosen size =
      if room < depth pool.length size ∧ size ≤ pool.length then ⟨[], some .tooDeep⟩
      else extend none pool chosen size := by
  induction pool generalizing room chosen size with
  | nil =>
    have hroom : ¬ (room < depth 0 size ∧ size ≤ (0 : Nat)) := by
      unfold depth
      split <;> omega
    rw [List.length_nil, if_neg hroom]
    unfold extend
    rfl
  | cons i pool ih =>
    obtain ⟨hi, hpool⟩ := List.forall_mem_cons.1 h
    by_cases h0 : size = 0
    · subst h0
      rw [if_neg (by unfold depth; omega), extend_zero, extend_zero]
    by_cases hshort : pool.length + 1 < size
    · rw [if_neg (by rw [List.length_cons]; omega)]
      unfold extend
      rw [if_neg h0, if_pos (by rw [List.length_cons]; omega), if_neg h0,
        if_pos (by rw [List.length_cons]; omega)]
    · have hle : size ≤ pool.length + 1 := Int.not_lt.1 hshort
      have hdepth : depth (pool.length + 1) size = depth pool.length (size - 1) + 1 := by
        unfold depth
        split <;> split <;> omega
      have hless : depth pool.length size ≤ depth (pool.length + 1) size := by
        unfold depth
        split <;> omega
      have hinsert : chosen.insert i = .ok (chosen.add i.toNat) := IdSet.insert_eq_ok_iff.2 ⟨hi, rfl⟩
      rw [List.length_cons, extend_of_insert _ hinsert h0 hle, extend_of_insert _ hinsert h0 hle]
      cases room with
      | zero =>
        rw [if_pos ⟨by unfold depth; split <;> omega, hle⟩]
        rfl
      | succ room =>
        simp only [opened?]
        rw [ih hpool, ih hpool]
        by_cases hdeep : room < depth pool.length (size - 1) ∧ size - 1 ≤ pool.length
        · have hdeep' : (room + 1 : Nat) < depth (pool.length + 1) size ∧
              size ≤ (pool.length + 1 : Nat) := by omega
          rw [if_pos hdeep, if_pos hdeep']
          rfl
        · rw [if_neg hdeep, if_neg (by omega), if_neg (by omega)]

/-- **What a limit does to the subsets of a size.** -/
theorem subsetsWithin_eq (h : IdSet.InRange ids) (room : Nat) (size : Int) :
    subsetsWithin (some room) ids size =
      if room < depth ids.length size ∧ size ≤ ids.length then ⟨[], some .tooDeep⟩
      else subsetsOfSize ids size := by
  have hlen : (ids.mergeSort fun a b => a ≤ b).length = ids.length := List.length_mergeSort ids
  rw [subsetsWithin, extend_within (inRange_mergeSort h), hlen]
  rfl

end GatedMaze
