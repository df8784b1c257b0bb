import GatedMaze.IdSet
import GatedMaze.Proofs.Outcomes
import Mathlib.Data.List.Sort

/-!
# Sets of ids as sets

* `ext_testBit`: sets that list the same ids are equal.
* `insert_eq_ok_iff`, `erase_eq`, `contains_eq_true_iff`: what can be put in, taken out and asked for.
* `drop_add`, `add_drop`: putting in and taking out undo each other.
* `drop_add_self`, `drop_add_of_ne`: taking an id out after one was put in.
* `contains_add_iff`, `subset_add`, `subset_of_subset_add`: what a set with one more id holds.
* `mem_addAll_empty`, `toList_addAll_empty`, `ofList_eq`: the set of given ids lists these ids.
* `testBit_dropAll`: what is left of a set without given ids.
-/

namespace GatedMaze.IdSet

/-- Sets that list the same ids are equal. -/
theorem ext_testBit {s t : IdSet} (h : ∀ i, s.mask.testBit i = t.mask.testBit i) : s = t := by
  cases s; cases t
  simp only [mk.injEq]
  exact Nat.eq_of_testBit_eq h

/-- The listed ids ascend, as whole numbers too. -/
theorem pairwise_toList (s : IdSet) : s.toList.Pairwise (· < ·) :=
  s.pairwise_toNats.map Int.ofNat fun _ _ h => Int.ofNat_lt.2 h

theorem nodup_toList (s : IdSet) : s.toList.Nodup :=
  s.pairwise_toList.imp fun h => Int.ne_of_lt h

theorem length_toList (s : IdSet) : s.toList.length = s.size := List.length_map _

theorem insert_eq_ok_iff {s t : IdSet} {i : Int} :
    s.insert i = .ok t ↔ (0 ≤ i ∧ i < capacity) ∧ t = s.add i.toNat := by
  unfold insert checked
  split
  · next h => simp [Except.map, h, eq_comm]
  · next h => simp [Except.map, h]

theorem contains_eq_true_iff {s : IdSet} {i : Int} :
    s.contains i = true ↔ (0 ≤ i ∧ i < capacity) ∧ s.mask.testBit i.toNat = true := by
  simp [contains, and_assoc]

theorem drop_add {s : IdSet} {i : Nat} (h : s.mask.testBit i = false) : (s.add i).drop i = s := by
  apply ext_testBit
  intro j
  rw [testBit_drop, testBit_add]
  by_cases e : i = j
  · subst e; simp [h]
  · simp [e]

theorem add_drop {s : IdSet} {i : Nat} (h : s.mask.testBit i = true) : (s.drop i).add i = s := by
  apply ext_testBit
  intro j
  rw [testBit_add, testBit_drop]
  by_cases e : i = j
  · subst e; simp [h]
  · simp [e]

theorem drop_add_self (s : IdSet) (i : Nat) : (s.add i).drop i = s.drop i := by
  apply ext_testBit
  intro j
  rw [testBit_drop, testBit_add, testBit_drop]
  by_cases hj : i = j <;> simp [hj]

theorem drop_add_of_ne {i j : Nat} (h : i ≠ j) (s : IdSet) : (s.add j).drop i = (s.drop i).add j := by
  apply ext_testBit
  intro n
  rw [testBit_drop, testBit_add, testBit_add, testBit_drop]
  by_cases hn : i = n
  · have hjn : j ≠ n := fun e => h (hn.trans e.symm)
    simp [hn, hjn]
  · simp [hn]

theorem add_comm (s : IdSet) (i j : Nat) : (s.add i).add j = (s.add j).add i := by
  apply ext_testBit
  intro n
  rw [testBit_add, testBit_add, testBit_add, testBit_add, Bool.or_assoc, Bool.or_assoc,
    Bool.or_comm (decide (i = n))]

theorem contains_add_iff {s : IdSet} {i k : Int} (hi : 0 ≤ i ∧ i < capacity) :
    (s.add i.toNat).contains k = true ↔ s.contains k = true ∨ k = i := by
  simp only [contains_eq_true_iff, testBit_add, Bool.or_eq_true, decide_eq_true_eq]
  constructor
  · rintro ⟨hr, hk | he⟩
    · exact .inl ⟨hr, hk⟩
    · exact .inr (by omega)
  · rintro (⟨hr, hk⟩ | rfl)
    · exact ⟨hr, .inl hk⟩
    · exact ⟨hi, .inr rfl⟩

theorem subset_add {s t : IdSet} (h : s.subset t = true) (i : Nat) : s.subset (t.add i) = true :=
  subset_iff.2 fun _ hj => mem_toNats_add.2 (.inr (subset_iff.1 h _ hj))

/-- An id that was put in makes no difference to sets without it. -/
theorem subset_of_subset_add {s t : IdSet} {i : Int} (hi : 0 ≤ i)
    (h : s.subset (t.add i.toNat) = true) (hs : i ∉ s.toList) : s.subset t = true := by
  refine subset_iff.2 fun j hj => (mem_toNats_add.1 (subset_iff.1 h j hj)).resolve_left fun e => ?_
  subst e
  exact hs (mem_toList.2 ⟨hi, mem_toNats.1 hj⟩)

theorem drop_subset (s : IdSet) (i : Nat) : (s.drop i).subset s = true :=
  subset_iff.2 fun _ hj => (mem_toNats_drop.1 hj).2

theorem ext_toList {s t : IdSet} (h : ∀ k, k ∈ s.toList ↔ k ∈ t.toList) : s = t := by
  apply ext_testBit
  intro i
  have := h i
  simp only [mem_toList, Int.natCast_nonneg, true_and, Int.toNat_natCast] at this
  exact Bool.eq_iff_iff.2 this

theorem isEmpty_iff {s : IdSet} : s.isEmpty = true ↔ s = empty := by
  cases s; simp [isEmpty, empty]

theorem toList_empty : empty.toList = [] := by cbv

theorem mem_toList_drop {s : IdSet} {i : Nat} {k : Int} :
    k ∈ (s.drop i).toList ↔ k ≠ i ∧ k ∈ s.toList := by
  simp only [mem_toList, testBit_drop, Bool.and_eq_true, decide_eq_true_eq]
  constructor
  · rintro ⟨h0, hs, hne⟩; exact ⟨by omega, h0, hs⟩
  · rintro ⟨hne, h0, hs⟩; exact ⟨h0, hs, by omega⟩

/-- Taking out a member leaves fewer ids. -/
theorem size_drop_lt {s : IdSet} {i : Nat} (h : (i : Int) ∈ s.toList) : (s.drop i).size < s.size := by
  rw [← length_toList, ← length_toList]
  have hsub : (i : Int) :: (s.drop i).toList ⊆ s.toList := by
    intro x hx
    rcases List.mem_cons.1 hx with rfl | hx
    · exact h
    · exact (mem_toList_drop.1 hx).2
  have hnew : (i : Int) ∉ (s.drop i).toList := fun hm => (mem_toList_drop.1 hm).1 rfl
  exact (List.nodup_cons.2 ⟨hnew, nodup_toList _⟩).length_le_of_subset hsub

theorem erase_eq {s : IdSet} {i : Int} (h : 0 ≤ i ∧ i < capacity) :
    s.erase i = .ok (s.drop i.toNat) := by
  unfold erase checked; rw [if_pos h]; rfl

/-- Distinct ids ascend once they are sorted. -/
theorem pairwise_lt_mergeSort {ids : List Int} (h : ids.Nodup) :
    (ids.mergeSort fun a b => a ≤ b).Pairwise (· < ·) := by
  have hle := ids.pairwise_mergeSort' (· ≤ ·)
  have hne := (ids.mergeSort_perm fun a b => a ≤ b).nodup_iff.2 h
  exact (hle.and hne).imp fun h => lt_of_le_of_ne h.1 h.2

/-- The set with more ids, each of which is at least zero. -/
def addAll (s : IdSet) (ids : List Int) : IdSet := ids.foldl (fun s i => s.add i.toNat) s

theorem testBit_addAll (s : IdSet) (ids : List Int) (j : Nat) :
    (s.addAll ids).mask.testBit j = true ↔
      s.mask.testBit j = true ∨ ∃ i ∈ ids, i.toNat = j := by
  induction ids generalizing s with
  | nil => simp [addAll]
  | cons i ids ih =>
    have := ih (s.add i.toNat)
    simp only [addAll, List.foldl_cons] at this ⊢
    rw [this, testBit_add, Bool.or_eq_true, decide_eq_true_eq, or_assoc]
    simp

/-- The ids that a set can hold. -/
def InRange (ids : List Int) : Prop := ∀ i ∈ ids, 0 ≤ i ∧ i < capacity

theorem mem_addAll_empty {ids : List Int} (h : InRange ids) {k : Int} :
    k ∈ (empty.addAll ids).toList ↔ k ∈ ids := by
  rw [mem_toList, testBit_addAll]
  simp only [empty, Nat.zero_testBit, Bool.false_eq_true, false_or]
  constructor
  · rintro ⟨h0, i, hi, e⟩
    have := (h i hi).1
    have : i = k := by omega
    exact this ▸ hi
  · intro hk; exact ⟨(h k hk).1, k, hk, rfl⟩

/-- A set of ascending ids lists them as they were put in. -/
theorem toList_addAll_empty {ids : List Int} (h : InRange ids) (hsorted : ids.Pairwise (· < ·)) :
    (empty.addAll ids).toList = ids :=
  (pairwise_toList _).eq_of_mem_iff hsorted fun _ => mem_addAll_empty h

theorem ofList_eq {ids : List Int} (h : InRange ids) : ofList ids = .ok (empty.addAll ids) :=
  foldlM_ok_of_forall empty fun _ i hi => insert_eq_ok_iff.2 ⟨h i hi, rfl⟩

/-- The set without some ids, each of which is at least zero. -/
def dropAll (s : IdSet) (ids : List Int) : IdSet := ids.foldl (fun s i => s.drop i.toNat) s

theorem testBit_dropAll (s : IdSet) {ids : List Int} (h : ∀ i ∈ ids, 0 ≤ i) (j : Nat) :
    (s.dropAll ids).mask.testBit j = true ↔ s.mask.testBit j = true ∧ (j : Int) ∉ ids := by
  induction ids generalizing s with
  | nil => simp [dropAll]
  | cons i ids ih =>
    rw [List.forall_mem_cons] at h
    have hi : i.toNat = j ↔ (j : Int) = i := by omega
    have := ih (s.drop i.toNat) h.2
    simp only [dropAll, List.foldl_cons] at this ⊢
    rw [this, testBit_drop, Bool.and_eq_true, decide_eq_true_eq, ne_eq, hi, List.mem_cons, not_or,
      and_assoc]

end GatedMaze.IdSet
