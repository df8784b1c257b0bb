import GatedMaze.Proofs.Legs
import Mathlib

/-!
# A table as a map on pairs

A table stores its values in a triangle of slots and works out the slot of a pair from the two ids. Seen from
outside it is a map on unordered pairs: each pair of its ids has a slot of its own, a pair reads what was
written there last, and the listing of a table goes through the slots in turn.

* `existsUnique_index`: every slot is that of one pair.
* `get_after`, `get_afterAll`: what is read after one write, and after any writes.
* `zipIdx_places`: the count of the listing agrees with the slots that are worked out.
* `map_index_pairs`, `mem_pairs`: what is listed, and in which order.
* `remembers_afterAll`: a table after any writes, those with ids outside the table included.
-/

namespace GatedMaze

/-- A value that is to be written for a pair of ids. -/
structure Write (α : Type) where
  first : Int
  second : Int
  value : α

variable {α : Type}

/-- Whether a write is for a pair, whichever id is named first. -/
def Write.IsFor (w : Write α) (a b : Int) : Prop :=
  (w.first = a ∧ w.second = b) ∨ (w.first = b ∧ w.second = a)

instance (w : Write α) (a b : Int) : Decidable (w.IsFor a b) := by unfold Write.IsFor; infer_instance

/-- What the last of some writes for a pair writes there. -/
def latest? (ws : List (Write α)) (a b : Int) : Option α :=
  (ws.reverse.find? fun w => w.IsFor a b).map Write.value

theorem latest?_append_single (ws : List (Write α)) (w : Write α) (a b : Int) :
    latest? (ws ++ [w]) a b = if w.IsFor a b then some w.value else latest? ws a b := by
  unfold latest?
  rw [List.reverse_append, List.reverse_singleton, List.singleton_append, List.find?_cons]
  by_cases hw : w.IsFor a b <;> simp [hw]

namespace PairTable

/-- The table after a write, which changes nothing when it is refused. -/
def after (t : PairTable α) (w : Write α) : PairTable α :=
  match t.set w.first w.second w.value with
  | .ok u => u
  | .error _ => t

/-- The table after writes in turn. -/
def afterAll (t : PairTable α) (ws : List (Write α)) : PairTable α := ws.foldl after t

/-- A table for the ids below `n` that was filled with one value and then written to. -/
structure Remembers (t : PairTable α) (n : Nat) (fill : α) (ws : List (Write α)) : Prop where
  /-- A pair of ids below `n` has a slot, the same for both orders of the ids. -/
  index : ∀ a b : Int, 0 ≤ a ∧ a < n → 0 ≤ b ∧ b < n →
    ∃ i < n * (n + 1) / 2, t.index a b = .ok i ∧ t.index b a = .ok i
  /-- Every slot is that of one pair. -/
  onto : ∀ i < n * (n + 1) / 2, ∃! p : Int × Int, p.1 ≤ p.2 ∧ t.index p.1 p.2 = .ok i
  /-- A pair reads the value of the last write for it. -/
  get : ∀ a b : Int, 0 ≤ a ∧ a < n → 0 ≤ b ∧ b < n → t.get a b = .ok ((latest? ws a b).getD fill)
  /-- A write for a pair of ids below `n` is not refused. -/
  set : ∀ a b : Int, 0 ≤ a ∧ a < n → 0 ≤ b ∧ b < n → ∀ v, ∃ u, t.set a b v = .ok u
  /-- With another id everything is refused, and a write changes nothing. -/
  outside : ∀ a b : Int, ¬ ((0 ≤ a ∧ a < n) ∧ 0 ≤ b ∧ b < n) →
    t.index a b = .error (.pairOutsideTable a b n) ∧ t.get a b = .error (.pairOutsideTable a b n) ∧
      ∀ v, t.set a b v = .error (.pairOutsideTable a b n) ∧ t.after ⟨a, b, v⟩ = t
  /-- The pairs are listed with what they read, by their slots in turn. -/
  pairs : (t.pairs.map fun x => t.index x.1 x.2.1) = (List.range (n * (n + 1) / 2)).map .ok ∧
    ∀ (hi lo : Nat) (v : α), (hi, lo, v) ∈ t.pairs ↔ lo ≤ hi ∧ t.get hi lo = .ok v

variable {t u : PairTable α} {n : Nat} {a b c d : Int} {v : α} {w : Write α}

theorem index_eq (h : t.Holds a ∧ t.Holds b) : t.index a b = .ok (slot a.toNat b.toNat) := if_pos h

theorem index_outside (h : ¬ (t.Holds a ∧ t.Holds b)) :
    t.index a b = .error (.pairOutsideTable a b t.n) := if_neg h

theorem set_outside (h : ¬ (t.Holds a ∧ t.Holds b)) (v : α) :
    t.set a b v = .error (.pairOutsideTable a b t.n) := by
  rw [set, index_outside h]
  rfl

/-! ## Slots -/

theorem mem_places {p : Nat × Nat} : p ∈ places n ↔ p.1 < n ∧ p.2 ≤ p.1 := by
  obtain ⟨hi, lo⟩ := p
  simp [places]

/-- The slots of the pairs, row by row, are all slots in turn. -/
theorem map_slot_places (n : Nat) :
    ((places n).map fun p => slot p.1 p.2) = List.range (n * (n + 1) / 2) := by
  rw [places, List.map_flatMap]
  induction n with
  | zero => rfl
  | succ n ih =>
    -- the slots of the last row come right after those of the rows above
    have hrow : ((List.range (n + 1)).map fun lo => (n, lo)).map (fun p => slot p.1 p.2) =
        (List.range (n + 1)).map (n * (n + 1) / 2 + ·) := by
      rw [List.map_map]
      refine List.map_congr_left fun lo hlo => ?_
      have hle : lo ≤ n := Nat.lt_succ_iff.1 (List.mem_range.1 hlo)
      rw [Function.comp_apply, slot, Nat.max_eq_left hle, Nat.min_eq_right hle]
    rw [List.range_succ, List.flatMap_append, ih, List.flatMap_singleton, hrow, ← List.range_add,
      triangle_succ]

/-- **Counting the pairs, row by row, gives their slots.** -/
theorem zipIdx_places (n : Nat) : (places n).zipIdx = (places n).map fun p => (p, slot p.1 p.2) := by
  refine List.ext_getElem (by simp) fun i hi _ => ?_
  have hlen : i < ((places n).map fun p => slot p.1 p.2).length := by simpa using hi
  have hslot : ((places n).map fun p => slot p.1 p.2)[i] = i := by simp [map_slot_places]
  rw [List.getElem_map] at hslot
  simp [hslot]

/-- **Every slot is that of one pair.** -/
theorem existsUnique_index {i : Nat} (hi : i < t.n * (t.n + 1) / 2) :
    ∃! p : Int × Int, p.1 ≤ p.2 ∧ t.index p.1 p.2 = .ok i := by
  have hmem := List.mem_range.2 hi
  rw [← map_slot_places, List.mem_map] at hmem
  obtain ⟨⟨high, low⟩, hplace, rfl⟩ := hmem
  obtain ⟨hhigh, hlow⟩ := mem_places.1 hplace
  refine ⟨(low, high), ⟨by simpa using hlow, ?_⟩, ?_⟩
  · rw [index_eq (by unfold Holds; omega), slot_comm]
    rfl
  · rintro ⟨a, b⟩ ⟨hle, h⟩
    by_cases hab : t.Holds a ∧ t.Holds b
    · rw [index_eq hab, Except.ok.injEq, slot_eq_iff] at h
      unfold Holds at hab
      simp only [Prod.mk.injEq] at hle ⊢
      omega
    · rw [index_outside hab] at h
      cases h

/-! ## Writes -/

theorem n_after (t : PairTable α) (w : Write α) : (t.after w).n = t.n := by
  unfold after set
  by_cases h : t.Holds w.first ∧ t.Holds w.second
  · rw [index_eq h]
    rfl
  · rw [index_outside h]
    rfl

/-- **What is read after a write.** -/
theorem get_after (hc : t.Holds c) (hd : t.Holds d) :
    (t.after w).get c d = if w.IsFor c d then .ok w.value else t.get c d := by
  unfold after
  cases hu : t.set w.first w.second w.value with
  | ok u => exact get_set hu
  | error e =>
    -- a refused write is not for a pair of the table
    refine (if_neg fun hw => ?_).symm
    have hin : t.Holds w.first ∧ t.Holds w.second := by
      rcases hw with ⟨h1, h2⟩ | ⟨h1, h2⟩
      · exact ⟨h1 ▸ hc, h2 ▸ hd⟩
      · exact ⟨h1 ▸ hd, h2 ▸ hc⟩
    obtain ⟨u, hok⟩ := exists_set hin w.value
    rw [hu] at hok
    cases hok

theorem n_afterAll (t : PairTable α) (ws : List (Write α)) : (t.afterAll ws).n = t.n := by
  induction ws generalizing t with
  | nil => rfl
  | cons w ws ih => exact (ih (t.after w)).trans (n_after t w)

/-- **What is read after any writes.** -/
theorem get_afterAll (fill : α) (ws : List (Write α)) (ha : 0 ≤ a ∧ a < n) (hb : 0 ≤ b ∧ b < n) :
    ((replicate n fill).afterAll ws).get a b = .ok ((latest? ws a b).getD fill) := by
  induction ws using List.reverseRecOn with
  | nil =>
    obtain ⟨v, hv⟩ := exists_get (t := replicate n fill) (a := a) (b := b) ⟨ha, hb⟩
    exact hv.trans (congrArg _ (eq_of_get_replicate hv))
  | append_singleton ws w ih =>
    have hn : ((replicate n fill).afterAll ws).n = n := n_afterAll ..
    have hlast : (replicate n fill).afterAll (ws ++ [w]) = ((replicate n fill).afterAll ws).after w :=
      List.foldl_append
    rw [hlast, get_after (by rwa [Holds, hn]) (by rwa [Holds, hn]), ih, latest?_append_single]
    split <;> rfl

/-! ## Listing -/

theorem getElem?_slot {hi lo : Nat} (hhi : hi < t.n) (hlo : lo < t.n) :
    t.slots[slot hi lo]? = some v ↔ t.get hi lo = .ok v := by
  have hlt : slot hi lo < t.slots.size := t.size_slots ▸ slot_lt hhi hlo
  have hin : t.Holds hi ∧ t.Holds lo := by unfold Holds; omega
  rw [Array.getElem?_eq_getElem hlt, get, dif_pos hin, Option.some.injEq, Except.ok.injEq]
  rfl

/-- The listing reads the slot of each pair. -/
theorem pairs_eq (t : PairTable α) : t.pairs =
    (places t.n).filterMap fun p => t.slots[slot p.1 p.2]?.map fun v => (p.1, p.2, v) := by
  rw [pairs, zipIdx_places, List.filterMap_map]
  rfl

/-- **The listed pairs**: each is listed with what it reads. -/
theorem mem_pairs {hi lo : Nat} : (hi, lo, v) ∈ t.pairs ↔ lo ≤ hi ∧ t.get hi lo = .ok v := by
  simp only [pairs_eq, List.mem_filterMap, mem_places, Option.map_eq_some_iff, Prod.exists,
    Prod.mk.injEq]
  constructor
  · rintro ⟨r, c, ⟨hr, hc⟩, x, hx, rfl, rfl, rfl⟩
    exact ⟨hc, (getElem?_slot hr (hc.trans_lt hr)).1 hx⟩
  · rintro ⟨hle, hget⟩
    have hhi : hi < t.n := by
      by_contra hge
      rw [get_outside (by unfold Holds; omega)] at hget
      cases hget
    exact ⟨hi, lo, ⟨hhi, hle⟩, v, (getElem?_slot hhi (hle.trans_lt hhi)).2 hget, rfl, rfl, rfl⟩

/-- **The slots of the listed pairs are all slots in turn.** -/
theorem map_index_pairs (t : PairTable α) :
    (t.pairs.map fun x => t.index x.1 x.2.1) = (List.range (t.n * (t.n + 1) / 2)).map .ok := by
  rw [← map_slot_places, pairs_eq, List.map_filterMap, List.map_map, ← List.filterMap_eq_map]
  refine List.filterMap_congr fun p hp => ?_
  obtain ⟨hhi, hlo⟩ := mem_places.1 hp
  have hlt : slot p.1 p.2 < t.slots.size := t.size_slots ▸ slot_lt hhi (hlo.trans_lt hhi)
  have hin : t.Holds p.1 ∧ t.Holds p.2 := by unfold Holds; omega
  rw [Array.getElem?_eq_getElem hlt]
  exact congrArg some (index_eq hin)

theorem remembers_of_afterAll (n : Nat) (fill : α) (ws : List (Write α)) :
    ((replicate n fill).afterAll ws).Remembers n fill ws := by
  have hn : ((replicate n fill).afterAll ws).n = n := n_afterAll ..
  generalize hu : (replicate n fill).afterAll ws = u at hn
  subst hn
  exact
    { index := fun a b ha hb => by
        have hab : u.Holds a ∧ u.Holds b := ⟨ha, hb⟩
        refine ⟨slot a.toNat b.toNat, u.size_slots ▸ slot_lt_size hab, index_eq hab, ?_⟩
        rw [index_eq hab.symm, slot_comm]
      onto := fun i hi => existsUnique_index hi
      get := fun a b ha hb => hu ▸ get_afterAll fill ws ha hb
      set := fun a b ha hb => exists_set ⟨ha, hb⟩
      outside := fun a b hout => by
        refine ⟨index_outside hout, get_outside hout, fun v => ⟨set_outside hout v, ?_⟩⟩
        rw [after, set_outside hout]
      pairs := ⟨map_index_pairs u, fun hi lo v => mem_pairs⟩ }

/-- A table that there is room for has the same value in every slot. -/
theorem eq_replicate_of_ofSize (h : ofSize n v = .ok t) : t = replicate n v := by
  unfold ofSize at h
  split at h
  · cases h
  · split at h
    · cases h
    · exact (Except.ok.inj h).symm

/-- **A table as a map on pairs.** A table that was filled with one value and then written to, at pairs
within it and outside, gives each pair a slot of its own. A pair reads what was written there last, or else
the value that the table was filled with; a pair outside the table is refused; and the listing has each pair
once, in the order of the slots, with what it reads. -/
theorem remembers_afterAll (n : Nat) (fill : α) (ws : List (Write α)) :
    ((replicate n fill).afterAll ws).Remembers n fill ws ∧
      ∀ t, ofSize n fill = .ok t → t = replicate n fill :=
  ⟨remembers_of_afterAll n fill ws, fun _ => eq_replicate_of_ofSize⟩

example : ((replicate 2 0).afterAll [⟨0, 1, 5⟩, ⟨1, 0, 7⟩, ⟨2, 0, 9⟩]).pairs =
    [(0, 0, 0), (1, 0, 7), (1, 1, 0)] := by cbv

end PairTable

end GatedMaze
