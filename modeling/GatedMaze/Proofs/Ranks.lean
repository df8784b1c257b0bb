import GatedMaze.Maze.Reader
import GatedMaze.Proofs.Regions
import Mathlib

/-!
# Quadrants are numbered like regions

The keys of a maze fall into regions. A region comes before another one when its smallest key is the
smaller, and its rank is the number of regions before it. Quadrants are filled with one region after the
other in this order, so the quadrant of a key is the rank of its region.

* `Homes.gather_ok`: which key leads the next quadrant.
* `Maze.rank_eq_iff`: two keys have the same rank when a walk joins them.
* `Maze.Ranked.gather`: one more quadrant takes in the region of the next rank.
* `Maze.quadrants_eq_ranks`: which quadrants the keys of a maze get, and which keys are left over when
  there are too few.
-/

namespace GatedMaze

namespace Homes

variable {legs : LegTable} {lead q k : Int} {ks : List Int} {h h' : Homes} {next next' : Option Int}

theorem holds_of_gather (hr : gather legs lead q ks h next = .ok (h', next'))
    (hk : h.holds k = true) : h'.holds k = true := by
  obtain ⟨x, hx⟩ := holds_eq_true_iff.1 hk
  exact holds_eq_true_iff.2 ⟨x, (of?_gather hr).2 (.inl hx)⟩

/-- **The first key that a pass leaves over leads the next quadrant**, unless there was one before. A
pass does not fail when the table has a slot for all pairs it looks at. -/
theorem gather_ok (hlead : legs.Holds lead) (hks : ∀ k ∈ ks, legs.Holds k) :
    ∃ h', gather legs lead q ks h next = .ok (h', next <|> ks.find? fun k => !h'.holds k) := by
  induction ks generalizing h next with
  | nil => exact ⟨h, by cases next <;> rfl⟩
  | cons k ks ih =>
    rw [List.forall_mem_cons] at hks
    -- a key that has a quadrant before the rest of the pass has one after it
    have hheld : ∀ h₁ : Homes, h₁.holds k = true →
        ∃ h', gather legs lead q ks h₁ next =
          .ok (h', next <|> (k :: ks).find? fun k => !h'.holds k) := by
      intro h₁ hk
      obtain ⟨h', hr⟩ : ∃ h', gather legs lead q ks h₁ next =
          .ok (h', next <|> ks.find? fun k => !h'.holds k) := ih hks.2
      refine ⟨h', ?_⟩
      rw [List.find?_cons_of_neg (by simp [holds_of_gather hr hk])]
      exact hr
    have hassign : (h.assign k q).holds k = true :=
      holds_eq_true_iff.2 ⟨q, by rw [of?_assign, if_pos rfl]⟩
    rw [gather]
    split
    · next hk => exact hheld h hk
    · next hk =>
      split
      · exact hheld _ hassign
      · next hne =>
        obtain ⟨found, hf⟩ := PairTable.exists_get ⟨hlead, hks.1⟩
        rw [hf]
        cases found with
        | some leg => exact hheld _ hassign
        | none =>
          obtain ⟨h', hr⟩ : ∃ h', gather legs lead q ks h (next <|> some k) =
              .ok (h', (next <|> some k) <|> ks.find? fun k => !h'.holds k) := ih hks.2
          refine ⟨h', ?_⟩
          have hleft : ¬ h'.holds k = true := by
            intro hheld
            obtain ⟨x, hx⟩ := holds_eq_true_iff.1 hheld
            rcases (of?_gather hr).1 hx with hx | ⟨-, -, hfol, -⟩
            · exact hk (holds_eq_true_iff.2 ⟨x, hx⟩)
            · rcases hfol with he | ⟨leg, hl⟩
              · exact hne he
              · rw [hf] at hl
                cases hl
          rw [List.find?_cons_of_pos (by simpa using hleft)]
          show gather legs lead q ks h (next <|> some k) = _
          rw [hr]
          cases next <;> rfl

end Homes

open Homes

namespace Maze

variable {m : Maze} {t : LegTable} {i j k l lead q x : Int} {h h' : Homes} {next : Option Int}

theorem sameRegion_iff : m.SameRegion j k ↔ ∃ x ∈ m.board.places, m.landmark? x.1 = some j ∧
    ∃ v ∈ m.search x.1, m.landmark? v.place = some k := by
  constructor
  · rintro ⟨p, q, hp, hq, ds, hw⟩
    obtain ⟨c, hc, -⟩ := isOpen_of_landmark? hp
    obtain ⟨v, hv, rfl⟩ := exists_mem_search (isOpen_of_landmark? hp).holds hw
    exact ⟨(p, c), Board.mem_places.2 hc, hp, v, hv, hq⟩
  · rintro ⟨⟨p, c⟩, -, hp, v, hv, hq⟩
    obtain ⟨ds, ⟨hw, -⟩, -⟩ := found_of_mem_search (isOpen_of_landmark? hp).holds hv
    exact ⟨p, v.place, hp, hq, ds, hw⟩

instance (m : Maze) (j k : Int) : Decidable (m.SameRegion j k) :=
  decidable_of_iff _ sameRegion_iff.symm

theorem sameRegion_self (hk : k ∈ m.keyIds) : m.SameRegion k k := by
  obtain ⟨p, hp⟩ := exists_landmark_of_mem hk
  exact ⟨p, p, hp, hp, [], walk_nil_iff.2 rfl⟩

/-- Whether a key is the smallest one of its region. -/
def IsFirst (m : Maze) (l : Int) : Prop := l ∈ m.keyIds ∧ ∀ k ∈ m.keyIds, m.SameRegion l k → l ≤ k

instance (m : Maze) (l : Int) : Decidable (m.IsFirst l) := by unfold IsFirst; infer_instance

/-- The smallest keys of the regions before that of a key. -/
def firstsBefore (m : Maze) (k : Int) : Finset Int :=
  m.keyIds.toFinset.filter fun l => m.IsFirst l ∧ ∀ j ∈ m.keyIds, m.SameRegion k j → l < j

/-- The rank of the region of a key. -/
def rank (m : Maze) (k : Int) : Nat := (m.firstsBefore k).card

theorem mem_firstsBefore :
    l ∈ m.firstsBefore k ↔ m.IsFirst l ∧ ∀ j ∈ m.keyIds, m.SameRegion k j → l < j := by
  simp only [firstsBefore, Finset.mem_filter, List.mem_toFinset, and_iff_right_iff_imp]
  exact fun h => h.1.1

theorem exists_isFirst (hk : k ∈ m.keyIds) : ∃ l, m.IsFirst l ∧ m.SameRegion l k := by
  set region := m.keyIds.toFinset.filter fun j => m.SameRegion k j with hregion
  have hmem : ∀ j, j ∈ region ↔ j ∈ m.keyIds ∧ m.SameRegion k j := by simp [hregion]
  obtain ⟨l, hl, hmin⟩ :=
    region.exists_min_image id ⟨k, (hmem k).2 ⟨hk, sameRegion_self hk⟩⟩
  obtain ⟨hlk, hkl⟩ := (hmem l).1 hl
  refine ⟨l, ⟨hlk, fun j hj hlj => hmin j ((hmem j).2 ⟨hj, hkl.trans hlj hlk⟩)⟩, hkl.symm⟩

theorem firstsBefore_eq (hj : j ∈ m.keyIds) (hk : k ∈ m.keyIds) (hjk : m.SameRegion j k) :
    m.firstsBefore j = m.firstsBefore k := by
  ext l
  rw [mem_firstsBefore, mem_firstsBefore]
  refine and_congr_right fun _ => forall₂_congr fun i hi => ?_
  have hiff : m.SameRegion j i ↔ m.SameRegion k i :=
    ⟨fun h => hjk.symm.trans h hj, fun h => hjk.trans h hk⟩
  rw [hiff]

theorem mem_firstsBefore_of_isFirst (hl : m.IsFirst l) :
    i ∈ m.firstsBefore l ↔ m.IsFirst i ∧ i < l := by
  rw [mem_firstsBefore]
  refine and_congr_right fun _ => ⟨fun h => h l hl.1 (sameRegion_self hl.1), fun h j hj hlj => ?_⟩
  have := hl.2 j hj hlj
  omega

/-- Of two regions the one with the smaller key has the lower rank. -/
theorem rank_lt_rank (hi : m.IsFirst i) (hl : m.IsFirst l) (hlt : i < l) : m.rank i < m.rank l := by
  refine Finset.card_lt_card ⟨fun j hj => ?_, fun hsub => ?_⟩
  · obtain ⟨hj, hji⟩ := (mem_firstsBefore_of_isFirst hi).1 hj
    exact (mem_firstsBefore_of_isFirst hl).2 ⟨hj, by omega⟩
  · have := hsub ((mem_firstsBefore_of_isFirst hl).2 ⟨hi, hlt⟩)
    have := ((mem_firstsBefore_of_isFirst hi).1 this).2
    omega

theorem rank_injOn (hi : m.IsFirst i) (hl : m.IsFirst l) (h : m.rank i = m.rank l) : i = l := by
  rcases Int.lt_trichotomy i l with hlt | heq | hlt
  · have := rank_lt_rank hi hl hlt
    omega
  · exact heq
  · have := rank_lt_rank hl hi hlt
    omega

/-- **Two keys have the same rank when a walk joins them.** -/
theorem rank_eq_iff (hj : j ∈ m.keyIds) (hk : k ∈ m.keyIds) :
    m.rank j = m.rank k ↔ m.SameRegion j k := by
  have hrank : ∀ {a b}, a ∈ m.keyIds → b ∈ m.keyIds → m.SameRegion a b → m.rank a = m.rank b :=
    fun ha hb hab => congrArg Finset.card (firstsBefore_eq ha hb hab)
  constructor
  · intro h
    obtain ⟨a, ha, haj⟩ := exists_isFirst hj
    obtain ⟨b, hb, hbk⟩ := exists_isFirst hk
    have hra := hrank ha.1 hj haj
    have hrb := hrank hb.1 hk hbk
    obtain rfl := rank_injOn ha hb (by omega)
    exact haj.symm.trans hbk ha.1
  · exact hrank hj hk

/-- The keys of the regions of the first `q` ranks have these ranks for quadrants, and no other key has
a quadrant. -/
def Ranked (m : Maze) (q : Int) (h : Homes) : Prop :=
  ∀ k x, h.of? k = some x ↔ k ∈ m.keyIds ∧ x = m.rank k ∧ x < q

theorem Ranked.holds_iff (hm : m.Ranked q h) (hk : k ∈ m.keyIds) : h.holds k = true ↔ m.rank k < q := by
  rw [holds_eq_true_iff]
  constructor
  · rintro ⟨x, hx⟩
    obtain ⟨-, rfl, hlt⟩ := (hm k x).1 hx
    exact hlt
  · intro hlt
    exact ⟨m.rank k, (hm k _).2 ⟨hk, rfl, hlt⟩⟩

/-- The first key without a quadrant is the smallest of the region whose turn it is. -/
theorem rank_of_first_left (hlead : lead ∈ m.keyIds) (h0 : 0 ≤ q) (hleft : q ≤ m.rank lead)
    (hmin : ∀ k ∈ m.keyIds, q ≤ m.rank k → lead ≤ k) : m.rank lead = q := by
  -- a smaller key of its region would have been found before it
  have hfirst : m.IsFirst lead := by
    obtain ⟨l, hl, hll⟩ := exists_isFirst hlead
    have hrank := (rank_eq_iff hl.1 hlead).2 hll
    have hle : lead ≤ l := hmin l hl.1 (by omega)
    have hge : l ≤ lead := hl.2 lead hlead hll
    obtain rfl : l = lead := by omega
    exact hl
  -- the regions before have ranks below `q`, each a different one
  have hcard : m.rank lead ≤ (Finset.range q.toNat).card := by
    refine Finset.card_le_card_of_injOn m.rank (fun i hi => ?_) (fun i hi j hj hij => ?_)
    · obtain ⟨hi, hlt⟩ := (mem_firstsBefore_of_isFirst hfirst).1 hi
      have hrank : ¬ q ≤ m.rank i := fun hq => by
        have := hmin i hi.1 hq
        omega
      rw [Finset.coe_range, Set.mem_Iio]
      omega
    · exact rank_injOn (mem_firstsBefore.1 hi).1 (mem_firstsBefore.1 hj).1 hij
  rw [Finset.card_range] at hcard
  omega

/-- What is found first in an ascending list is the smallest. -/
theorem le_of_find? {ids : List Int} {p : Int → Bool} (hs : ids.Pairwise (· < ·))
    (hf : ids.find? p = some lead) (hk : k ∈ ids) (hp : p k = true) : lead ≤ k := by
  obtain ⟨-, before, after, rfl, hb⟩ := List.find?_eq_some_iff_append.1 hf
  rcases List.mem_append.1 hk with hk | hk
  · have := hb k hk
    simp [hp] at this
  · rcases List.mem_cons.1 hk with rfl | hk
    · omega
    · exact Int.le_of_lt ((List.pairwise_cons.1 (List.pairwise_append.1 hs).2.1).1 k hk)

/-- **One more quadrant takes in the region of the next rank.** -/
theorem Ranked.gather (ht : m.legs = .ok t) (hlead : lead ∈ m.keyIds) (hrank : m.rank lead = q)
    (hm : m.Ranked q h) (hr : gather t lead q m.keyIds h none = .ok (h', next)) :
    m.Ranked (q + 1) h' := by
  intro k x
  rw [of?_gather hr, hm k x]
  constructor
  · rintro (⟨hk, hx, hlt⟩ | ⟨-, hk, hf, rfl⟩)
    · exact ⟨hk, hx, by omega⟩
    · have := (rank_eq_iff hlead hk).2 ((follows_iff ht hlead hk).1 hf)
      exact ⟨hk, by omega, by omega⟩
  · rintro ⟨hk, rfl, hlt⟩
    by_cases hq : (m.rank k : Int) < q
    · exact .inl ⟨hk, rfl, hq⟩
    · have heq : (m.rank k : Int) = q := by omega
      have hreg := (rank_eq_iff hlead hk).1 (by omega)
      have hnone : h.of? k = none := by
        rw [← holds_eq_false_iff, ← Bool.not_eq_true, hm.holds_iff hk]
        omega
      exact .inr ⟨hnone, hk, (follows_iff ht hlead hk).2 hreg, heq⟩

theorem Ranked.left_iff (hm : m.Ranked q h) (hk : k ∈ m.keyIds) :
    (!h.holds k) = true ↔ q ≤ m.rank k := by
  rw [Bool.not_eq_true', ← Bool.not_eq_true, hm.holds_iff hk]
  omega

/-- **Quadrant after quadrant**, regions are taken in by their rank. -/
theorem Ranked.fill (ht : m.legs = .ok t) (n : Nat) (h0 : 0 ≤ q) (hm : m.Ranked q h)
    (hnext : next = m.keyIds.find? fun k => !h.holds k) :
    ∃ h', fill t m.keyIds n q next h = .ok h' ∧ m.Ranked (q + n) h' := by
  have hholds : ∀ k ∈ m.keyIds, t.Holds k := by
    intro k hk
    have := keyIds_lt_startId hk
    exact ((legs_ok ht).1.holds k).2 (by omega)
  induction n generalizing q h next with
  | zero => exact ⟨h, rfl, by simpa using hm⟩
  | succ n ih =>
    cases next with
    | none =>
      -- all keys have a quadrant, so further quadrants stay empty
      have hall : ∀ k ∈ m.keyIds, m.rank k < q := by
        intro k hk
        have := List.find?_eq_none.1 hnext.symm k hk
        rw [hm.left_iff hk] at this
        omega
      refine ⟨h, rfl, fun k x => (hm k x).trans ⟨?_, ?_⟩⟩
      · rintro ⟨hk, hx, hlt⟩
        exact ⟨hk, hx, by omega⟩
      · rintro ⟨hk, rfl, -⟩
        exact ⟨hk, rfl, hall k hk⟩
    | some lead =>
      have hlead : lead ∈ m.keyIds := List.mem_of_find?_eq_some hnext.symm
      have hleft : (!h.holds lead) = true := (List.find?_eq_some_iff_append.1 hnext.symm).1
      have hrank : m.rank lead = q :=
        rank_of_first_left hlead h0 ((hm.left_iff hlead).1 hleft)
          fun k hk hq => le_of_find? m.sorted_keyIds hnext.symm hk ((hm.left_iff hk).2 hq)
      obtain ⟨h₁, hr⟩ : ∃ h₁, Homes.gather t lead q m.keyIds h none =
          .ok (h₁, m.keyIds.find? fun k => !h₁.holds k) := gather_ok (hholds lead hlead) hholds
      obtain ⟨h', hf, hm'⟩ := ih (by omega) (hm.gather ht hlead hrank hr) rfl
      refine ⟨h', ?_, ?_⟩
      · rw [Homes.fill, hr]
        exact hf
      · have hq : q + (n + 1 : Nat) = q + 1 + n := by omega
        rw [hq]
        exact hm'

theorem ranked_empty : m.Ranked 0 .empty := by
  intro k x
  rw [of?_empty]
  constructor
  · intro h
    cases h
  · rintro ⟨-, rfl, hlt⟩
    omega

/-- All quadrants there may be are filled, and the keys that then have none are left over. -/
theorem assignQuadrants_eq (ht : m.legs = .ok t) (n : Int) : ∃ homes, m.Ranked (max n 0) homes ∧
    assignQuadrants m.keyIds t n =
      match m.keyIds.filter fun k => !homes.holds k with
      | [] => .ok homes
      | left => .error (.maze (.unassigned left n)) := by
  have hsort : (m.keyIds.mergeSort fun a b => a ≤ b) = m.keyIds :=
    List.mergeSort_of_pairwise (m.sorted_keyIds.imp fun h => decide_eq_true (Int.le_of_lt h))
  obtain ⟨homes, hf, hm⟩ := Ranked.fill ht n.toNat (Int.le_refl 0) ranked_empty rfl
  have hmax : 0 + (n.toNat : Int) = max n 0 := by omega
  exact ⟨homes, hmax ▸ hm, assignQuadrants_of_fill hsort hf⟩

/-- **Quadrants are regions, numbered by rank.** With too few quadrants the keys of the regions that get
none are left over, in ascending order. Otherwise each key has the rank of its region, keys share a
quadrant when a walk joins them, and there are no legs between quadrants. -/
theorem quadrants_eq_ranks (ht : m.legs = .ok t) (n : Int) :
    ((∃ k ∈ m.keyIds, max n 0 ≤ m.rank k) → ∃ left,
      assignQuadrants m.keyIds t n = .error (.maze (.unassigned left n)) ∧
        left.Pairwise (· < ·) ∧ ∀ k, k ∈ left ↔ k ∈ m.keyIds ∧ max n 0 ≤ m.rank k) ∧
    ((∀ k ∈ m.keyIds, m.rank k < max n 0) → ∃ homes,
      assignQuadrants m.keyIds t n = .ok homes ∧
        (∀ k x, homes.of? k = some x ↔ k ∈ m.keyIds ∧ x = m.rank k) ∧
        ∀ j ∈ m.keyIds, ∀ k ∈ m.keyIds, (homes.of? j = homes.of? k ↔ m.SameRegion j k) ∧
          (homes.of? j ≠ homes.of? k → t.get j k = .ok none)) := by
  obtain ⟨homes, hm, heq⟩ := assignQuadrants_eq ht n
  have hleft : ∀ k, k ∈ m.keyIds.filter (fun k => !homes.holds k) ↔
      k ∈ m.keyIds ∧ max n 0 ≤ m.rank k := by
    intro k
    rw [List.mem_filter]
    exact and_congr_right fun hk => hm.left_iff hk
  constructor
  · rintro ⟨k, hk⟩
    refine ⟨_, ?_, m.sorted_keyIds.filter _, hleft⟩
    rw [heq]
    split
    · next hnil =>
      have := (hleft k).2 hk
      rw [hnil] at this
      cases this
    · rfl
  · intro hall
    have hnil : m.keyIds.filter (fun k => !homes.holds k) = [] := by
      refine List.eq_nil_iff_forall_not_mem.2 fun k hk => ?_
      obtain ⟨hk, hle⟩ := (hleft k).1 hk
      have := hall k hk
      omega
    have hof : ∀ k x, homes.of? k = some x ↔ k ∈ m.keyIds ∧ x = m.rank k := by
      intro k x
      rw [hm k x]
      refine and_congr_right fun hk => and_iff_left_of_imp ?_
      rintro rfl
      exact hall k hk
    have hsame : ∀ j ∈ m.keyIds, ∀ k ∈ m.keyIds,
        (homes.of? j = homes.of? k ↔ m.SameRegion j k) := by
      intro j hj k hk
      rw [(hof j _).2 ⟨hj, rfl⟩, (hof k _).2 ⟨hk, rfl⟩, ← rank_eq_iff hj hk, Option.some.injEq,
        Int.ofNat_inj]
    rw [hnil] at heq
    refine ⟨homes, heq, hof, fun j hj k hk => ⟨hsame j hj k hk, fun hne => ?_⟩⟩
    -- a leg would be a walk
    have hj' := keyIds_lt_startId hj
    have hk' := keyIds_lt_startId hk
    have hcharted := (legs_ok ht).1
    obtain ⟨found, hf⟩ := PairTable.exists_get (t := t) (a := j) (b := k)
      ⟨(hcharted.holds j).2 (by omega), (hcharted.holds k).2 (by omega)⟩
    cases found with
    | none => exact hf
    | some leg =>
      obtain ⟨-, p, q, hp, hq, ds, ⟨hw, -⟩, -⟩ := hcharted.sound j k leg hf
      exact absurd ((hsame j hj k hk).2 ⟨p, q, hp, hq, ds, hw⟩) hne

example : (do
    let m ← Maze.ofText "a.c#b@"
    let t ← m.legs
    assignQuadrants m.keyIds t (-1)) = .error (.maze (.unassigned [0, 1, 2] (-1))) := by cbv

theorem quadrants_eq_ranks_twoRooms : ∃ m t, ofText "a.c#b@" = .ok m ∧ m.legs = .ok t ∧
    m.rank 0 = 0 ∧ m.rank 1 = 1 ∧ m.rank 2 = 0 ∧ m.SameRegion 0 2 ∧ t.get 0 1 = .ok none := by
  have h : (do
      let m ← ofText "a.c#b@"
      let t ← m.legs
      let homes ← assignQuadrants m.keyIds t 4
      pure (m.keyIds, homes.of? 0, homes.of? 1, homes.of? 2)) =
      .ok ([0, 1, 2], some 0, some 1, some 0) := by cbv
  simp only [bind_ok_iff, pure_eq_ok, Except.ok.injEq, Prod.mk.injEq] at h
  obtain ⟨m, hm, t, ht, homes, hh, hkeys, h0, h1, h2⟩ := h
  obtain ⟨hfew, henough⟩ := quadrants_eq_ranks ht 4
  have hall : ∀ k ∈ m.keyIds, m.rank k < max (4 : Int) 0 := by
    by_contra hne
    push Not at hne
    obtain ⟨left, he, -⟩ := hfew hne
    rw [hh] at he
    cases he
  obtain ⟨homes', hh', hof, hsame⟩ := henough hall
  obtain rfl : homes = homes' := Except.ok.inj (hh.symm.trans hh')
  have hr0 := ((hof 0 0).1 h0).2
  have hr1 := ((hof 1 1).1 h1).2
  have hr2 := ((hof 2 0).1 h2).2
  have h02 := (hsame 0 (by simp [hkeys]) 2 (by simp [hkeys])).1
  have h01 := (hsame 0 (by simp [hkeys]) 1 (by simp [hkeys])).2
  exact ⟨m, t, hm, ht, by omega, by omega, by omega, h02.1 (h0.trans h2.symm),
    h01 (by simp [h0, h1])⟩

end Maze

end GatedMaze
