import GatedMaze.Proofs.Ranks

/-!
# Quadrants of any table

Quadrants are filled greedily: the smallest key that is left leads the next one and takes along the keys left
that it has a leg with. The table need not be that of a maze, so two keys of a quadrant may have no leg with
each other, and a key may have legs with keys of several quadrants.

* `mem_leftAfter`, `mem_greedyQuadrant`: the keys left are those of no quadrant so far, and which of them the
  next one takes.
* `isLeast_greedyQuadrant_iff`, `exists_count`, `not_follows_of_lt`: a quadrant is led by its smallest key,
  quadrants are numbered without gaps, and their leading keys have no legs with each other.
* `Grouped.gather`, `Grouped.fill`: one more quadrant, and quadrant after quadrant.
* `fill_of_exhausted`: once all keys have a quadrant, more quadrants change nothing.
* `exists_grouped`: the quadrants that are assigned, and the keys that are left over.
* `quadrants_greedy`: which quadrants the keys get, and which are left over.
-/

namespace GatedMaze

open Homes

variable {t : LegTable} {s : Finset Int} {keys : List Int} {h h' homes : Homes} {d e k lead : Int}
  {n p q : Nat}

instance : Decidable (Follows t lead k) :=
  match hg : t.get lead k with
  | .ok (some leg) => .isTrue (.inr ⟨leg, hg⟩)
  | .ok none => decidable_of_iff (k = lead) ⟨.inl, fun hf => hf.resolve_right (by simp [hg])⟩
  | .error _ => decidable_of_iff (k = lead) ⟨.inl, fun hf => hf.resolve_right (by simp [hg])⟩

/-- The quadrant that the smallest of some keys leads: this key and those of them that it has a leg with. -/
def ledBySmallest (t : LegTable) (s : Finset Int) : Finset Int :=
  s.filter fun k => ∃ lead ∈ s, (∀ j ∈ s, lead ≤ j) ∧ Follows t lead k

/-- The keys that are in none of the first `q` quadrants. -/
def leftAfter (t : LegTable) (s : Finset Int) : Nat → Finset Int
  | 0 => s
  | q + 1 => leftAfter t s q \ ledBySmallest t (leftAfter t s q)

/-- The keys of quadrant `q`: the smallest key that is left leads it. -/
def greedyQuadrant (t : LegTable) (s : Finset Int) (q : Nat) : Finset Int :=
  ledBySmallest t (leftAfter t s q)

/-- **The keys left** are those of no quadrant so far. -/
theorem mem_leftAfter : k ∈ leftAfter t s q ↔ k ∈ s ∧ ∀ p < q, k ∉ greedyQuadrant t s p := by
  induction q with
  | zero => simp [leftAfter]
  | succ q ih =>
    rw [leftAfter, Finset.mem_sdiff, ih, and_assoc, Nat.forall_lt_succ_right]
    rfl

theorem mem_greedyQuadrant : k ∈ greedyQuadrant t s q ↔
    k ∈ leftAfter t s q ∧ ∃ lead, IsLeast (leftAfter t s q : Set Int) lead ∧ Follows t lead k := by
  rw [greedyQuadrant, ledBySmallest, Finset.mem_filter]
  refine and_congr_right fun _ => exists_congr fun lead => ?_
  rw [← and_assoc]
  rfl

theorem leftAfter_anti (hpq : p ≤ q) : leftAfter t s q ⊆ leftAfter t s p := by
  intro k hk
  obtain ⟨hs, hnone⟩ := mem_leftAfter.1 hk
  exact mem_leftAfter.2 ⟨hs, fun i hi => hnone i (Nat.lt_of_lt_of_le hi hpq)⟩

theorem exists_isLeast (hne : s.Nonempty) : ∃ lead, IsLeast (s : Set Int) lead :=
  ⟨s.min' hne, s.isLeast_min' hne⟩

theorem mem_greedyQuadrant_of_isLeast (hlead : IsLeast (leftAfter t s q : Set Int) lead) :
    lead ∈ greedyQuadrant t s q :=
  mem_greedyQuadrant.2 ⟨hlead.1, lead, hlead, .inl rfl⟩

/-- **A quadrant is led by its smallest key.** -/
theorem isLeast_greedyQuadrant_iff :
    IsLeast (greedyQuadrant t s q : Set Int) lead ↔ IsLeast (leftAfter t s q : Set Int) lead := by
  have hleast : ∀ {d}, IsLeast (leftAfter t s q : Set Int) d →
      IsLeast (greedyQuadrant t s q : Set Int) d := fun hd =>
    ⟨mem_greedyQuadrant_of_isLeast hd, fun k hk => hd.2 (mem_greedyQuadrant.1 hk).1⟩
  refine ⟨fun hlead => ?_, hleast⟩
  obtain ⟨-, d, hd, -⟩ := mem_greedyQuadrant.1 hlead.1
  exact (hleast hd).unique hlead ▸ hd

theorem nonempty_greedyQuadrant_iff :
    (greedyQuadrant t s q).Nonempty ↔ (leftAfter t s q).Nonempty := by
  constructor
  · rintro ⟨k, hk⟩
    exact ⟨k, (mem_greedyQuadrant.1 hk).1⟩
  · intro hne
    obtain ⟨lead, hlead⟩ := exists_isLeast hne
    exact ⟨lead, mem_greedyQuadrant_of_isLeast hlead⟩

/-- **Quadrants are numbered without gaps**, and there are no more than exhaust the keys. -/
theorem exists_count (hn : leftAfter t s n = ∅) :
    ∃ m ≤ n, ∀ q, (greedyQuadrant t s q).Nonempty ↔ q < m := by
  have hex : ∃ m, leftAfter t s m = ∅ := ⟨n, hn⟩
  refine ⟨Nat.find hex, Nat.find_min' hex hn, fun q => ?_⟩
  rw [nonempty_greedyQuadrant_iff, Finset.nonempty_iff_ne_empty]
  constructor
  · intro hne
    by_contra hle
    have hsub := leftAfter_anti (t := t) (s := s) (Nat.le_of_not_lt hle)
    rw [Nat.find_spec hex] at hsub
    exact hne (Finset.subset_empty.1 hsub)
  · exact Nat.find_min hex

/-- **The leading key of a later quadrant has no leg with that of an earlier one.** -/
theorem not_follows_of_lt (hpq : p < q) (hd : IsLeast (leftAfter t s p : Set Int) d)
    (he : IsLeast (leftAfter t s q : Set Int) e) : ¬ Follows t d e := by
  intro hf
  have hleft : e ∈ leftAfter t s p := leftAfter_anti (Nat.le_of_lt hpq) he.1
  exact (mem_leftAfter.1 he.1).2 p hpq (mem_greedyQuadrant.2 ⟨hleft, d, hd, hf⟩)

/-- **Leading keys have no legs with each other.** -/
theorem get_eq_none_of_ne (hin : ∀ k ∈ s, t.Holds k) (hpq : p ≠ q)
    (hd : IsLeast (greedyQuadrant t s p : Set Int) d) (he : IsLeast (greedyQuadrant t s q : Set Int) e) :
    t.get d e = .ok none := by
  have hlater : ∀ {p q d e}, p < q → IsLeast (greedyQuadrant t s p : Set Int) d →
      IsLeast (greedyQuadrant t s q : Set Int) e → t.Holds d ∧ t.Holds e ∧ t.get d e = .ok none := by
    intro p q d e hlt hd he
    rw [isLeast_greedyQuadrant_iff] at hd he
    have hholdsd := hin d (mem_leftAfter.1 hd.1).1
    have hholdse := hin e (mem_leftAfter.1 he.1).1
    obtain ⟨found, hf⟩ := PairTable.exists_get ⟨hholdsd, hholdse⟩
    cases found with
    | none => exact ⟨hholdsd, hholdse, hf⟩
    | some leg => exact absurd (.inr ⟨leg, hf⟩) (not_follows_of_lt hlt hd he)
  rcases Nat.lt_or_gt_of_ne hpq with hlt | hgt
  · exact (hlater hlt hd he).2.2
  · obtain ⟨hholdse, hholdsd, hnone⟩ := hlater hgt he hd
    rw [PairTable.get_comm hholdsd hholdse, hnone]

/-- The keys of the first `q` quadrants have their numbers, and no other key has a quadrant. -/
def Grouped (t : LegTable) (s : Finset Int) (q : Nat) (h : Homes) : Prop :=
  ∀ k x, h.of? k = some x ↔ ∃ p : Nat, p < q ∧ x = p ∧ k ∈ greedyQuadrant t s p

namespace Grouped

variable (hg : Grouped t s q h)
include hg

theorem mem_left_iff : k ∈ leftAfter t s q ↔ k ∈ s ∧ (!h.holds k) = true := by
  rw [mem_leftAfter, Bool.not_eq_true', ← Bool.not_eq_true, holds_eq_true_iff]
  refine and_congr_right fun _ => ?_
  simp only [hg k]
  constructor
  · rintro hnone ⟨x, p, hp, -, hk⟩
    exact hnone p hp hk
  · intro hnone p hp hk
    exact hnone ⟨p, p, hp, rfl, hk⟩

/-- **One more quadrant.** -/
theorem gather {next : Option Int} (hs : ∀ k, k ∈ keys ↔ k ∈ s)
    (hlead : IsLeast (leftAfter t s q : Set Int) lead)
    (hr : Homes.gather t lead q keys h none = .ok (h', next)) : Grouped t s (q + 1) h' := by
  intro k x
  rw [of?_gather hr, hg k x]
  have hnew : h.of? k = none ∧ k ∈ keys ∧ Follows t lead k ↔ k ∈ greedyQuadrant t s q := by
    rw [← holds_eq_false_iff, ← Bool.not_eq_true', hs, ← and_assoc, and_comm (b := k ∈ s),
      ← hg.mem_left_iff, mem_greedyQuadrant]
    refine and_congr_right fun _ => ⟨fun hf => ⟨lead, hlead, hf⟩, ?_⟩
    rintro ⟨d, hd, hf⟩
    exact hd.unique hlead ▸ hf
  constructor
  · rintro (⟨p, hp, hx, hk⟩ | ⟨hnone, hk, hf, hx⟩)
    · exact ⟨p, Nat.lt_succ_of_lt hp, hx, hk⟩
    · exact ⟨q, Nat.lt_succ_self q, hx, hnew.1 ⟨hnone, hk, hf⟩⟩
  · rintro ⟨p, hp, hx, hk⟩
    rcases Nat.lt_succ_iff_lt_or_eq.1 hp with hlt | rfl
    · exact .inl ⟨p, hlt, hx, hk⟩
    · obtain ⟨hnone, hmem, hf⟩ := hnew.2 hk
      exact .inr ⟨hnone, hmem, hf, hx⟩

/-- When no key is left, further quadrants stay empty. -/
theorem add (hnone : leftAfter t s q = ∅) (n : Nat) : Grouped t s (q + n) h := by
  intro k x
  rw [hg k x]
  constructor
  · rintro ⟨p, hp, hx, hk⟩
    exact ⟨p, by omega, hx, hk⟩
  · rintro ⟨p, -, hx, hk⟩
    refine ⟨p, ?_, hx, hk⟩
    by_contra hle
    have hleft := leftAfter_anti (Nat.le_of_not_lt hle) (mem_greedyQuadrant.1 hk).1
    rw [hnone] at hleft
    exact absurd hleft (Finset.notMem_empty k)

end Grouped

section Fill

variable (hsort : keys.Pairwise (· < ·)) (hs : ∀ k, k ∈ keys ↔ k ∈ s) (hin : ∀ k ∈ keys, t.Holds k)

include hsort hs in
/-- The first key without a quadrant is the smallest that is left. -/
theorem Grouped.isLeast_of_find? (hg : Grouped t s q h)
    (hf : (keys.find? fun k => !h.holds k) = some lead) : IsLeast (leftAfter t s q : Set Int) lead := by
  have hleft : (!h.holds lead) = true := (List.find?_eq_some_iff_append.1 hf).1
  refine ⟨hg.mem_left_iff.2 ⟨(hs lead).1 (List.mem_of_find?_eq_some hf), hleft⟩, fun k hk => ?_⟩
  obtain ⟨hks, hleft⟩ := hg.mem_left_iff.1 hk
  exact Maze.le_of_find? hsort hf ((hs k).2 hks) hleft

include hs in
theorem Grouped.left_eq_empty_iff (hg : Grouped t s q h) :
    leftAfter t s q = ∅ ↔ (keys.find? fun k => !h.holds k) = none := by
  rw [List.find?_eq_none, Finset.eq_empty_iff_forall_notMem]
  refine forall_congr' fun k => ?_
  rw [hg.mem_left_iff, hs, not_and]

include hsort hs hin in
/-- **Quadrant after quadrant.** -/
theorem Grouped.fill (n : Nat) (hg : Grouped t s q h) :
    ∃ h', Homes.fill t keys n q (keys.find? fun k => !h.holds k) h = .ok h' ∧
      Grouped t s (q + n) h' := by
  induction n generalizing q h with
  | zero => exact ⟨h, rfl, hg⟩
  | succ n ih =>
    cases hnext : keys.find? fun k => !h.holds k with
    | none => exact ⟨h, rfl, hg.add ((hg.left_eq_empty_iff hs).2 hnext) (n + 1)⟩
    | some lead =>
      have hlead := hg.isLeast_of_find? hsort hs hnext
      obtain ⟨h₁, hr⟩ : ∃ h₁, Homes.gather t lead q keys h none =
          .ok (h₁, keys.find? fun k => !h₁.holds k) :=
        gather_ok (hin lead (List.mem_of_find?_eq_some hnext)) hin
      obtain ⟨h', hf, hg'⟩ := ih (hg.gather hs hlead hr)
      refine ⟨h', ?_, ?_⟩
      · rw [Homes.fill, hr]
        exact hf
      · rwa [Nat.add_assoc, Nat.add_comm 1] at hg'

include hin in
/-- **Once all keys have a quadrant, more quadrants change nothing.** -/
theorem fill_of_exhausted {x : Int}
    (hf : Homes.fill t keys n x (keys.find? fun k => !h.holds k) h = .ok h')
    (hall : (keys.find? fun k => !h'.holds k) = none) (d : Nat) :
    Homes.fill t keys (n + d) x (keys.find? fun k => !h.holds k) h = .ok h' := by
  induction n generalizing x h with
  | zero =>
    obtain rfl := Except.ok.inj hf
    rw [hall]
    cases Nat.zero + d <;> rfl
  | succ n ih =>
    rw [Nat.succ_add]
    cases hnext : keys.find? fun k => !h.holds k with
    | none =>
      rw [hnext] at hf
      exact hf
    | some lead =>
      obtain ⟨h₁, hr⟩ : ∃ h₁, Homes.gather t lead x keys h none =
          .ok (h₁, keys.find? fun k => !h₁.holds k) :=
        gather_ok (hin lead (List.mem_of_find?_eq_some hnext)) hin
      rw [hnext, Homes.fill, hr] at hf
      rw [Homes.fill, hr]
      exact ih hf

end Fill

theorem grouped_empty : Grouped t s 0 .empty := by
  intro k x
  rw [of?_empty]
  constructor
  · intro hk
    cases hk
  · rintro ⟨p, hp, -⟩
    cases hp

/-- **The quadrants that are assigned, and the keys that are left over.** -/
theorem exists_grouped (hnodup : keys.Nodup) (hin : ∀ k ∈ keys, t.Holds k) (n : Nat) :
    ∃ homes left, Grouped t keys.toFinset n homes ∧ left.Pairwise (· < ·) ∧
      (∀ k, k ∈ left ↔ k ∈ leftAfter t keys.toFinset n) ∧
      (assignQuadrants keys t n = if left = [] then .ok homes else .error (.maze (.unassigned left n))) ∧
      (left = [] → ∀ d : Nat, assignQuadrants keys t (n + d : Nat) = .ok homes) := by
  -- what quadrants take in is decided on the sorted keys
  set ks := keys.mergeSort fun a b => a ≤ b with hks
  have hsort : ks.Pairwise (· < ·) := IdSet.pairwise_lt_mergeSort hnodup
  have hmem : ∀ k, k ∈ ks ↔ k ∈ keys.toFinset := fun k => List.mem_mergeSort.trans List.mem_toFinset.symm
  have hin' : ∀ k ∈ ks, t.Holds k := fun k hk => hin k (List.mem_mergeSort.1 hk)
  obtain ⟨homes, hfill, hg⟩ := grouped_empty.fill hsort hmem hin' n
  rw [Nat.zero_add] at hg
  refine ⟨homes, ks.filter fun k => !homes.holds k, hg, hsort.filter _, fun k => ?_, ?_, fun hnil d => ?_⟩
  · rw [List.mem_filter, hmem, ← hg.mem_left_iff]
  · rw [assignQuadrants_of_fill (n := n) hks.symm hfill]
    split
    · next hnil => rw [if_pos hnil]
    · next hne => rw [if_neg hne]
  · have hall : (ks.find? fun k => !homes.holds k) = none :=
      List.find?_eq_none.2 (List.filter_eq_nil_iff.1 hnil)
    rw [assignQuadrants_of_fill (n := (n + d : Nat)) hks.symm (fill_of_exhausted hin' hfill hall d), hnil]

/-- **Quadrants of any table.** Of some keys the smallest that is outside the quadrants so far leads the next
one, and takes along those outside that it has a leg with. When `n` quadrants exhaust the keys each key gets
the number of its quadrant: the numbers have no gaps, every quadrant is led by its smallest key, leading keys
have no legs with each other, and it makes no difference how many more quadrants there may be. Otherwise the
keys outside the first `n` quadrants are left over, in ascending order. -/
theorem quadrants_greedy (hnodup : keys.Nodup) (hin : ∀ k ∈ keys, t.Holds k) (n : Nat) :
    let quadrant := greedyQuadrant t keys.toFinset
    let outside := fun q : Nat => {k | k ∈ keys ∧ ∀ p < q, k ∉ quadrant p}
    (∀ q k, k ∈ quadrant q ↔
      k ∈ outside q ∧ ∃ lead, IsLeast (outside q) lead ∧ Follows t lead k) ∧
    (outside n = ∅ → ∃ homes, assignQuadrants keys t n = .ok homes ∧
      (∀ k x, homes.of? k = some x ↔ ∃ q : Nat, x = q ∧ k ∈ quadrant q) ∧
      (∃ m ≤ n, ∀ q, (quadrant q).Nonempty ↔ q < m) ∧
      (∀ q lead, IsLeast (quadrant q : Set Int) lead ↔ IsLeast (outside q) lead) ∧
      (∀ p q d e, p ≠ q → IsLeast (quadrant p : Set Int) d → IsLeast (quadrant q : Set Int) e →
        t.get d e = .ok none) ∧
      ∀ n' : Nat, n ≤ n' → assignQuadrants keys t n' = .ok homes) ∧
    (outside n ≠ ∅ → ∃ left, assignQuadrants keys t n = .error (.maze (.unassigned left n)) ∧
      left.Pairwise (· < ·) ∧ ∀ k, k ∈ left ↔ k ∈ outside n) := by
  intro quadrant outside
  set s := keys.toFinset with hs
  have hout : ∀ q, (leftAfter t s q : Set Int) = outside q := by
    intro q
    ext k
    exact mem_leftAfter.trans (and_congr_left fun _ => List.mem_toFinset)
  have hempty : ∀ q, outside q = ∅ ↔ leftAfter t s q = ∅ := fun q => by
    rw [← hout, Finset.coe_eq_empty]
  have hlead : ∀ q lead, IsLeast (quadrant q : Set Int) lead ↔ IsLeast (outside q) lead :=
    fun q lead => by rw [← hout, ← isLeast_greedyQuadrant_iff]
  obtain ⟨homes, left, hg, hsorted, hiff, hassign, hmore⟩ := exists_grouped hnodup hin n
  have hnil : left = [] ↔ leftAfter t s n = ∅ := by
    rw [List.eq_nil_iff_forall_not_mem, Finset.eq_empty_iff_forall_notMem]
    exact forall_congr' fun k => not_congr (hiff k)
  refine ⟨fun q k => ?_, fun hexhausted => ?_, fun hleft => ?_⟩
  · rw [← hout]
    exact mem_greedyQuadrant
  · have hnone := (hempty n).1 hexhausted
    rw [if_pos (hnil.2 hnone)] at hassign
    refine ⟨homes, hassign, fun k x => ?_, exists_count hnone, hlead, fun p q d e hpq hd he => ?_,
      fun n' hle => ?_⟩
    · constructor
      · intro hk
        obtain ⟨q, -, hx⟩ := (hg k x).1 hk
        exact ⟨q, hx⟩
      · rintro ⟨q, hx⟩
        exact (hg.add hnone (q + 1) k x).2 ⟨q, by omega, hx⟩
    · exact get_eq_none_of_ne (fun k hk => hin k (List.mem_toFinset.1 hk)) hpq hd he
    · obtain ⟨d, rfl⟩ := Nat.exists_eq_add_of_le hle
      exact hmore (hnil.2 hnone) d
  · rw [if_neg fun h => hleft ((hempty n).2 (hnil.1 h))] at hassign
    refine ⟨left, hassign, hsorted, fun k => (hiff k).trans ?_⟩
    rw [← hout, Finset.mem_coe]

/-- Three keys in a row; the ones at the ends have no leg with each other. -/
def keyRow : LegTable :=
  ⟨3, #[none, some ⟨1, ⟨0⟩⟩, none, none, some ⟨1, ⟨0⟩⟩, none], rfl⟩

theorem quadrants_greedy_keyRow :
    ([2, 0, 1] : List Int).Nodup ∧ (∀ k ∈ ([2, 0, 1] : List Int), keyRow.Holds k) ∧
    (∃ homes, assignQuadrants [2, 0, 1] keyRow 2 = .ok homes ∧ homes.of? 1 = some 0 ∧
      homes.of? 2 = some 1 ∧ assignQuadrants [2, 0, 1] keyRow 9 = .ok homes) ∧
    ∃ left, assignQuadrants [2, 0, 1] keyRow 1 = .error (.maze (.unassigned left 1)) ∧ 2 ∈ left := by
  have hnodup : ([2, 0, 1] : List Int).Nodup := by decide
  have hin : ∀ k ∈ ([2, 0, 1] : List Int), keyRow.Holds k := by decide
  have htwo : ∀ k ∈ ([2, 0, 1] : List Int), ∃ p < 2,
      k ∈ greedyQuadrant keyRow ([2, 0, 1] : List Int).toFinset p := by decide
  have hone : ∀ p < 1, 2 ∉ greedyQuadrant keyRow ([2, 0, 1] : List Int).toFinset p := by decide
  refine ⟨hnodup, hin, ?_, ?_⟩
  · obtain ⟨-, henough, -⟩ := quadrants_greedy hnodup hin 2
    obtain ⟨homes, hh, hof, -, -, -, hmore⟩ := henough <| Set.eq_empty_iff_forall_notMem.2 <| by
      rintro k ⟨hk, hout⟩
      obtain ⟨p, hp, hkp⟩ := htwo k hk
      exact hout p hp hkp
    exact ⟨homes, hh, (hof 1 0).2 ⟨0, rfl, by decide⟩, (hof 2 1).2 ⟨1, rfl, by decide⟩,
      hmore 9 (by decide)⟩
  · obtain ⟨-, -, hfew⟩ := quadrants_greedy hnodup hin 1
    have hmem : (2 : Int) ∈ ([2, 0, 1] : List Int) ∧
        ∀ p < 1, 2 ∉ greedyQuadrant keyRow ([2, 0, 1] : List Int).toFinset p := ⟨by decide, hone⟩
    obtain ⟨left, he, -, hiff⟩ := hfew (Set.nonempty_iff_ne_empty.1 ⟨2, hmem⟩)
    exact ⟨left, he, (hiff 2).2 hmem⟩

end GatedMaze
