import GatedMaze.Proofs.Ids
import Mathlib

/-!
# Sets of ids as finite sets

The mask of a set stands for the finite set of its one bits. Listing, counting, putting in, taking out,
asking, inclusion and equality each work on the mask in a way of their own; each of them does to the mask
what the operation of the same name does to the finite set. Only ids from 0 to 31 can be put in, taken out
and found; the higher bits of a mask that was given as a number are listed, counted and compared.

* `toNats_eq_filter`, `toNats_eq_bitIndices`: what the loop over the mask lists; the listing is the library's own.
* `size_eq_count_digits`: the size is the number of ones among the binary digits of the mask.
* `ofList_of_inRange`, `insertAll_of_not_inRange`: the set of given ids.
* `idSet_actsAsFinset`: all operations.
-/

namespace GatedMaze.IdSet

variable {s t : IdSet} {ids : List Int} {i k : Int} {e : Fault}

/-- The finite set that a set of ids stands for. -/
def members (s : IdSet) : Finset Int := s.toList.toFinset

/-- What is asked of a set of ids is what is asked of the finite set that it stands for. -/
structure ActsAsFinset (s : IdSet) : Prop where
  /-- The listed ids are the one bits of the mask. -/
  bits : ∀ k, k ∈ s.toList ↔ 0 ≤ k ∧ s.mask.testBit k.toNat = true
  /-- They ascend, without repetition. -/
  ascends : s.toList.Pairwise (· < ·)
  /-- Their number is that of the ones among the binary digits of the mask. -/
  size : s.size = s.members.card ∧ s.size = (Nat.digits 2 s.mask).count 1
  subset : ∀ t : IdSet, s.subset t = true ↔ s.members ⊆ t.members
  eq : ∀ t : IdSet, s = t ↔ s.members = t.members
  insert : ∀ i : Int, 0 ≤ i ∧ i < capacity →
    ∃ t, s.insert i = .ok t ∧ t.members = Insert.insert i s.members
  erase : ∀ i : Int, 0 ≤ i ∧ i < capacity → ∃ t, s.erase i = .ok t ∧ t.members = s.members.erase i
  contains : ∀ i : Int, 0 ≤ i ∧ i < capacity → (s.contains i = true ↔ i ∈ s.members)
  /-- Other ids are refused, and never found. -/
  outside : ∀ i : Int, ¬ (0 ≤ i ∧ i < capacity) → s.insert i = .error (.idOutsideSet i) ∧
    s.erase i = .error (.idOutsideSet i) ∧ s.contains i = false

theorem mem_members : k ∈ s.members ↔ k ∈ s.toList := List.mem_toFinset

theorem card_members (s : IdSet) : s.members.card = s.size := by
  rw [members, List.toFinset_card_of_nodup s.nodup_toList, length_toList]

/-! ## The bits of a mask -/

/-- **The loop lists the places below the length of the mask that have a one.** -/
theorem toNats_eq_filter (s : IdSet) :
    s.toNats = (List.range s.mask.size).filter fun i => s.mask.testBit i := by
  refine s.pairwise_toNats.eq_of_mem_iff (List.pairwise_lt_range.filter _) fun i => ?_
  rw [mem_toNats, List.mem_filter, List.mem_range, iff_and_self]
  exact fun hbit => Nat.lt_size.2 (Nat.ge_two_pow_of_testBit hbit)

/-- **The listing is the library's own.** -/
theorem toNats_eq_bitIndices (s : IdSet) : s.toNats = s.mask.bitIndices :=
  s.pairwise_toNats.eq_of_mem_iff Nat.bitIndices_sorted.pairwise fun _ =>
    mem_toNats.trans Nat.mem_bitIndices.symm

theorem length_bitIndices (n : Nat) : n.bitIndices.length = (Nat.digits 2 n).count 1 := by
  induction n using Nat.binaryRec with
  | zero => rw [Nat.bitIndices_zero, Nat.digits_zero]; rfl
  | bit b n ih =>
    by_cases hn : Nat.bit b n = 0
    · rw [hn, Nat.bitIndices_zero, Nat.digits_zero]
      rfl
    · -- the lowest binary digit is the lowest bit, and the others are those of the shifted mask
      rw [Nat.digits_def' one_lt_two (Nat.pos_of_ne_zero hn), Nat.bit_mod_two, Nat.bit_div_two]
      cases b with
      | false =>
        rw [Nat.bitIndices_bit_false, List.length_map, ih]
        simp
      | true =>
        rw [Nat.bitIndices_bit_true, List.length_cons, List.length_map, ih]
        simp

/-- **The size counts the ones among the binary digits of the mask.** -/
theorem size_eq_count_digits (s : IdSet) : s.size = (Nat.digits 2 s.mask).count 1 := by
  rw [size, toNats_eq_bitIndices, length_bitIndices]

/-! ## Operations -/

theorem members_add (hi : 0 ≤ i) : (s.add i.toNat).members = Insert.insert i s.members := by
  ext k
  rw [Finset.mem_insert, mem_members, mem_members, mem_toList, mem_toList, testBit_add, Bool.or_eq_true,
    decide_eq_true_eq]
  constructor
  · rintro ⟨h0, hbit | he⟩
    · exact .inr ⟨h0, hbit⟩
    · exact .inl (by omega)
  · rintro (rfl | ⟨h0, hbit⟩)
    · exact ⟨hi, .inr rfl⟩
    · exact ⟨h0, .inl hbit⟩

theorem members_drop (hi : 0 ≤ i) : (s.drop i.toNat).members = s.members.erase i := by
  ext k
  rw [Finset.mem_erase, mem_members, mem_members, mem_toList_drop, Int.toNat_of_nonneg hi]

theorem subset_iff_members : s.subset t = true ↔ s.members ⊆ t.members := by
  simp only [subset_iff, Finset.subset_iff, mem_members, mem_toList, mem_toNats]
  constructor
  · rintro h k ⟨h0, hk⟩
    exact ⟨h0, h _ hk⟩
  · intro h i hi
    exact (h ⟨Int.natCast_nonneg i, hi⟩).2

theorem eq_iff_members : s = t ↔ s.members = t.members := by
  constructor
  · rintro rfl
    rfl
  · intro h
    exact ext_toList fun k => by rw [← mem_members, h, mem_members]

theorem checked_outside (h : ¬ (0 ≤ i ∧ i < capacity)) : checked i = .error (.idOutsideSet i) := if_neg h

theorem actsAsFinset (s : IdSet) : s.ActsAsFinset where
  bits k := mem_toList
  ascends := s.pairwise_toList
  size := ⟨s.card_members.symm, s.size_eq_count_digits⟩
  subset _ := subset_iff_members
  eq _ := eq_iff_members
  insert i hi := ⟨s.add i.toNat, insert_eq_ok_iff.2 ⟨hi, rfl⟩, members_add hi.1⟩
  erase i hi := ⟨s.drop i.toNat, erase_eq hi, members_drop hi.1⟩
  contains i hi := by rw [contains_eq_true_iff, mem_members, mem_toList, and_iff_right hi, and_iff_right hi.1]
  outside i hi := by
    refine ⟨by rw [insert, checked_outside hi]; rfl, by rw [erase, checked_outside hi]; rfl, ?_⟩
    rw [← Bool.not_eq_true, contains_eq_true_iff]
    exact fun h => hi h.1

/-! ## The set of given ids -/

theorem ofList_of_inRange (h : InRange ids) : ∃ s, ofList ids = .ok s ∧ s.members = ids.toFinset := by
  refine ⟨_, ofList_eq h, ?_⟩
  ext k
  rw [mem_members, mem_addAll_empty h, List.mem_toFinset]

theorem insertAll_of_not_inRange (s : IdSet) (h : ¬ InRange ids) :
    ∃ (before : List Int) (i : Int) (after : List Int), ids = before ++ i :: after ∧ InRange before ∧
      ¬ (0 ≤ i ∧ i < capacity) ∧ s.insertAll ids = .error (.idOutsideSet i) := by
  induction ids generalizing s with
  | nil => exact absurd (fun _ hi => absurd hi List.not_mem_nil) h
  | cons j ids ih =>
    by_cases hj : 0 ≤ j ∧ j < capacity
    · have hrest : ¬ InRange ids := fun hin => h (List.forall_mem_cons.2 ⟨hj, hin⟩)
      obtain ⟨before, i, after, rfl, hbefore, hi, herr⟩ := ih (s.add j.toNat) hrest
      refine ⟨j :: before, i, after, rfl, List.forall_mem_cons.2 ⟨hj, hbefore⟩, hi, ?_⟩
      rw [insertAll, List.foldlM_cons, insert_eq_ok_iff.2 ⟨hj, rfl⟩]
      exact herr
    · refine ⟨[], j, ids, rfl, fun _ hi => absurd hi List.not_mem_nil, hj, ?_⟩
      rw [insertAll, List.foldlM_cons, insert, checked_outside hj]
      rfl

/-- **Sets of ids act as finite sets.** A set lists the one bits of its mask, ascending; each operation does
to the listed ids what it does to a finite set, as long as its id is from 0 to 31, and refuses any other id.
The set of given ids lists these ids when all of them are from 0 to 31, and the first other one is refused. -/
theorem idSet_actsAsFinset : (∀ s : IdSet, s.ActsAsFinset) ∧
    (∀ ids, InRange ids → ∃ s, ofList ids = .ok s ∧ s.members = ids.toFinset) ∧
    ∀ ids, ¬ InRange ids → ∃ (before : List Int) (i : Int) (after : List Int),
      ids = before ++ i :: after ∧ InRange before ∧ ¬ (0 ≤ i ∧ i < capacity) ∧ ofList ids = .error (.idOutsideSet i) :=
  ⟨actsAsFinset, fun _ => ofList_of_inRange, fun _ => insertAll_of_not_inRange empty⟩

example : (⟨2 ^ 40 + 5⟩ : IdSet).toList = [0, 2, 40] := by cbv

end GatedMaze.IdSet
