import GatedMaze.Proofs.Orders
import Mathlib.Algebra.BigOperators.Group.Finset.Piecewise

/-!
# A table for each quadrant

The table of a quadrant has the same legs, but the keys of other quadrants are taken out of all gates. A
walk of all keys is made up of one walk in each of these tables.

* `PairTable.get_map`, `PairTable.set_map`: reading and writing a table whose values are changed.
* `get_own`: the legs of a quadrant's table.
* `next_own`: the keys of a quadrant are fetched alike with all keys about and with those of the quadrant.
* `exists_own_walkers`: an accepted order is accepted in each quadrant, and its moves are theirs together.
-/

namespace GatedMaze

open Walker

namespace PairTable

variable {α β : Type}

/-- The table with a function applied to each value. -/
def map (f : α → β) (t : PairTable α) : PairTable β where
  n := t.n
  slots := t.slots.map f
  size_slots := by rw [Array.size_map, t.size_slots]

theorem get_map (f : α → β) (t : PairTable α) (a b : Int) : (t.map f).get a b = (t.get a b).map f := by
  by_cases h : t.Holds a ∧ t.Holds b
  · have h' : (t.map f).Holds a ∧ (t.map f).Holds b := h
    unfold get
    rw [dif_pos h, dif_pos h']
    simp [map, Except.map]
  · have h' : ¬ ((t.map f).Holds a ∧ (t.map f).Holds b) := h
    rw [get_outside h, get_outside h']
    rfl

theorem map_replicate (f : α → β) (n : Nat) (v : α) :
    (replicate n v).map f = replicate n (f v) := by
  simp [map, replicate]

theorem map_id (t : PairTable α) : t.map id = t := by
  cases t
  simp [map]

/-- A write into a table whose values are changed. -/
theorem set_map {f : α → β} {t : PairTable α} {a b : Int} {v : α} :
    (t.map f).set a b (f v) = (t.set a b v).map (PairTable.map f) := by
  unfold set index
  by_cases h : t.Holds a ∧ t.Holds b
  · have h' : (t.map f).Holds a ∧ (t.map f).Holds b := h
    rw [if_pos h, if_pos h']
    simp [map, Except.map]
  · have h' : ¬ ((t.map f).Holds a ∧ (t.map f).Holds b) := h
    rw [if_neg h, if_neg h']
    rfl

end PairTable

/-- The table with ids taken out of the gates of all legs. -/
def LegTable.forget (t : LegTable) (ids : List Int) : LegTable :=
  t.map (Option.map fun leg => { leg with gates := leg.gates.dropAll ids })

namespace Homes

/-- The keys that lie in a quadrant. -/
def keysIn (h : Homes) (keys : List Int) (x : Int) : List Int := keys.filter fun k => h.of? k = some x

/-- The keys that lie elsewhere. -/
def keysOff (h : Homes) (keys : List Int) (x : Int) : List Int := keys.filter fun k => h.of? k ≠ some x

/-- The quadrants in which keys lie. -/
def inUse (h : Homes) (keys : List Int) : Finset Int := (keys.filterMap h.of?).toFinset

/-- The table of a quadrant, to which the keys of other quadrants are no gates. -/
def ownTable (h : Homes) (t : LegTable) (keys : List Int) (x : Int) : LegTable :=
  t.forget (h.keysOff keys x)

variable {homes : Homes} {keys o : List Int} {k x y : Int}

theorem mem_keysIn : k ∈ homes.keysIn keys x ↔ k ∈ keys ∧ homes.of? k = some x := by
  simp [keysIn]

theorem mem_keysOff : k ∈ homes.keysOff keys x ↔ k ∈ keys ∧ homes.of? k ≠ some x := by
  simp [keysOff]

theorem mem_inUse : x ∈ homes.inUse keys ↔ ∃ k ∈ keys, homes.of? k = some x := by
  simp [inUse]

theorem mem_inUse_iff_ne_nil : x ∈ homes.inUse keys ↔ homes.keysIn keys x ≠ [] := by
  rw [mem_inUse]
  constructor
  · rintro ⟨k, hk, hx⟩
    exact List.ne_nil_of_mem (mem_keysIn.2 ⟨hk, hx⟩)
  · intro h
    obtain ⟨k, hk⟩ := List.exists_mem_of_ne_nil _ h
    exact ⟨k, mem_keysIn.1 hk⟩

theorem keysIn_append_of_eq (h : homes.of? k = some x) :
    homes.keysIn (o ++ [k]) x = homes.keysIn o x ++ [k] := by
  simp [keysIn, List.filter_append, h]

theorem keysIn_append_of_ne (h : homes.of? k ≠ some x) :
    homes.keysIn (o ++ [k]) x = homes.keysIn o x := by
  simp [keysIn, List.filter_append, h]

theorem isOrdering_keysIn (h : IsOrdering keys o) (x : Int) :
    IsOrdering (homes.keysIn keys x) (homes.keysIn o x) := by
  refine ⟨h.1.filter _, fun k => ?_⟩
  rw [mem_keysIn, mem_keysIn, h.2]

end Homes

open Homes

variable {legs : LegTable} {start : Int} {homes : Homes} {keys o : List Int} {k x a b : Int}
  {leg : Leg} {w u : Walker}

/-- **The legs of a quadrant's table** are those of the whole table, with fewer gates. -/
theorem get_own : (homes.ownTable legs keys x).get a b = .ok (some leg) ↔ ∃ leg',
    legs.get a b = .ok (some leg') ∧
      leg = { leg' with gates := leg'.gates.dropAll (homes.keysOff keys x) } := by
  rw [ownTable, LegTable.forget, PairTable.get_map, map_ok_iff]
  constructor
  · rintro ⟨found, hf, hleg⟩
    obtain ⟨leg', rfl, rfl⟩ := Option.map_eq_some_iff.1 hleg
    exact ⟨leg', hf, rfl⟩
  · rintro ⟨leg', hf, rfl⟩
    exact ⟨some leg', hf, rfl⟩

/-- The gates left in a quadrant's table. -/
theorem testBit_own (hrange : IdSet.InRange keys) (s : IdSet) (i : Nat) :
    (s.dropAll (homes.keysOff keys x)).mask.testBit i = true ↔
      s.mask.testBit i = true ∧ (i : Int) ∉ homes.keysOff keys x :=
  IdSet.testBit_dropAll s (fun j hj => (hrange j (mem_keysOff.1 hj).1).1) i

/-- **A key that is fetched with all keys about** is fetched in the table of its quadrant too, by a walker
that has fetched the keys of this quadrant. -/
theorem next_own (hrange : IdSet.InRange keys) (ho : ∀ j ∈ o, j ∈ keys)
    (hw : along legs start (some homes) o = .ok w)
    (hu : along (homes.ownTable legs keys x) start none (homes.keysIn o x) = .ok u)
    (hx : homes.of? k = some x) {w' : Walker} (hk : next legs start (some homes) w k = .ok w') :
    ∃ d, w'.walked = w.walked + d ∧
      next (homes.ownTable legs keys x) start none u k = .ok (u.fetched none k d) := by
  obtain ⟨hnew, hr, quadrant, leg, hquad, hleg, hopen, rfl⟩ := next_eq_ok_iff.1 hk
  obtain ⟨y, hy, rfl⟩ := quadrantOf_some_iff.1 hquad
  obtain rfl : x = y := Option.some.inj (hx.symm.trans hy)
  have hlast : w.originIn start (some x) = u.originIn start none := by
    show (w.lastIn.of? x).getD start = u.last
    rw [lastIn_eq hw, last_of_along hu]
    rfl
  refine ⟨leg.distance, rfl, next_eq_ok_iff.2 ⟨?_, hr, none,
    ⟨leg.distance, leg.gates.dropAll (homes.keysOff keys x)⟩, rfl, ?_, ?_, rfl⟩⟩
  · rw [← Bool.not_eq_true, contains_held hu]
    rw [← Bool.not_eq_true, contains_held hw] at hnew
    exact fun hm => hnew (mem_keysIn.1 hm).1
  · rw [← hlast]
    exact get_own.2 ⟨leg, hleg, rfl⟩
  · -- a gate that is left is a key of this quadrant, or it would not be held
    rw [IdSet.subset_iff] at hopen ⊢
    intro i hi
    obtain ⟨hgate, hoff⟩ := (testBit_own hrange _ i).1 (IdSet.mem_toNats.1 hi)
    have hheld := (testBit_held hw i).1 (IdSet.mem_toNats.1 (hopen i (IdSet.mem_toNats.2 hgate)))
    refine IdSet.mem_toNats.2 ((testBit_held hu i).2 (mem_keysIn.2 ⟨hheld, ?_⟩))
    by_contra hne
    exact hoff (mem_keysOff.2 ⟨ho _ hheld, hne⟩)

/-- **An accepted order is accepted in each quadrant**, and its moves are theirs together. -/
theorem exists_own_walkers (hrange : IdSet.InRange keys) (ho : ∀ j ∈ o, j ∈ keys)
    (h : along legs start (some homes) o = .ok w) : ∃ v : Int → Walker,
      (∀ x, along (homes.ownTable legs keys x) start none (homes.keysIn o x) = .ok (v x)) ∧
        w.walked = ∑ x ∈ homes.inUse keys, (v x).walked := by
  induction o using List.reverseRecOn generalizing w with
  | nil =>
    obtain rfl := along_nil_ok.1 h
    exact ⟨fun _ => atStart start, fun x => rfl, by simp [atStart]⟩
  | append_singleton q k ih =>
    obtain ⟨w₀, hw₀, hk⟩ := along_append_ok.1 h
    have hq : ∀ j ∈ q, j ∈ keys := fun j hj => ho j (List.mem_append_left _ hj)
    obtain ⟨v, hv, hsum⟩ := ih hq hw₀
    obtain ⟨-, -, quadrant, -, hquad, -⟩ := next_eq_ok_iff.1 hk
    obtain ⟨y, hy, -⟩ := quadrantOf_some_iff.1 hquad
    obtain ⟨d, hd, hnext⟩ := next_own hrange hq hw₀ (hv y) hy hk
    -- only the walker of the key's quadrant moves
    refine ⟨Function.update v y ((v y).fetched none k d), fun x => ?_, ?_⟩
    · by_cases e : x = y
      · subst e
        rw [Function.update_self, keysIn_append_of_eq hy]
        exact along_append_ok.2 ⟨v x, hv x, hnext⟩
      · have hne : homes.of? k ≠ some x := by
          rw [hy]
          exact fun h => e (Option.some.inj h).symm
        rw [Function.update_of_ne e, keysIn_append_of_ne hne]
        exact hv x
    · have hmem : y ∈ homes.inUse keys := mem_inUse.2 ⟨k, ho k (by simp), hy⟩
      have hrest : ∑ x ∈ (homes.inUse keys).erase y,
          (Function.update v y ((v y).fetched none k d) x).walked =
            ∑ x ∈ (homes.inUse keys).erase y, (v x).walked := by
        refine Finset.sum_congr rfl fun x hx => ?_
        rw [Function.update_of_ne (Finset.ne_of_mem_erase hx)]
      rw [← Finset.add_sum_erase _ _ hmem] at hsum ⊢
      rw [hrest, Function.update_self, hd, hsum]
      show _ = (v y).walked + d + _
      omega

end GatedMaze
