import GatedMaze.Coord

/-!
# Boards

A board holds one value for each place of a rectangle, row by row. Main statements:

* `get?_set`: a write changes what is read at its own place only;
* `get?_mapPlaces`: a change that is given place by place acts on what is read at that place.
-/

namespace GatedMaze

/-- A rectangle of values, stored row by row. -/
structure Board (α : Type) where
  rows : Nat
  cols : Nat
  cells : Array α
  size_cells : cells.size = rows * cols

namespace Board

variable {α β : Type}

/-- Whether a place lies on the board. -/
def Holds (b : Board α) (p : Coord) : Prop :=
  0 ≤ p.row ∧ p.row < b.rows ∧ 0 ≤ p.col ∧ p.col < b.cols

instance (b : Board α) (p : Coord) : Decidable (b.Holds p) := by unfold Holds; infer_instance

/-- Where the value of a place is stored. -/
def slot (b : Board α) (p : Coord) : Nat := p.row.toNat * b.cols + p.col.toNat

/-- The place whose value is stored at a slot. -/
def place (b : Board α) (i : Nat) : Coord := ⟨(i / b.cols : Nat), (i % b.cols : Nat)⟩

theorem slot_lt {b : Board α} {p : Coord} (h : b.Holds p) : b.slot p < b.cells.size := by
  obtain ⟨h1, h2, h3, h4⟩ := h
  have hr : p.row.toNat + 1 ≤ b.rows := by omega
  have hc : p.col.toNat < b.cols := by omega
  -- the row of `p` ends before the last row does
  have := Nat.mul_le_mul_right b.cols hr
  rw [Nat.add_mul, Nat.one_mul] at this
  rw [b.size_cells]
  unfold slot
  omega

theorem place_slot {b : Board α} {p : Coord} (h : b.Holds p) : b.place (b.slot p) = p := by
  obtain ⟨h1, h2, h3, h4⟩ := h
  have hc : p.col.toNat < b.cols := by omega
  have hd : b.slot p / b.cols = p.row.toNat := by
    rw [slot, Nat.add_comm, Nat.add_mul_div_right _ _ (by omega), Nat.div_eq_of_lt hc, Nat.zero_add]
  have hm : b.slot p % b.cols = p.col.toNat := by
    rw [slot, Nat.add_comm, Nat.add_mul_mod_self_right, Nat.mod_eq_of_lt hc]
  rw [place, hd, hm, Int.toNat_of_nonneg h1, Int.toNat_of_nonneg h3]

theorem holds_place {b : Board α} {i : Nat} (h : i < b.cells.size) : b.Holds (b.place i) := by
  rw [b.size_cells] at h
  -- a board with a slot has a column
  have hc : 0 < b.cols := by
    rcases Nat.eq_zero_or_pos b.cols with h0 | h0
    · rw [h0] at h; omega
    · exact h0
  have h1 : i / b.cols < b.rows := Nat.div_lt_of_lt_mul (by rwa [Nat.mul_comm] at h)
  have h2 : i % b.cols < b.cols := Nat.mod_lt _ hc
  exact ⟨Int.natCast_nonneg _, Int.ofNat_lt.2 h1, Int.natCast_nonneg _, Int.ofNat_lt.2 h2⟩

theorem slot_place {b : Board α} (i : Nat) : b.slot (b.place i) = i := by
  rw [slot, place, Int.toNat_natCast, Int.toNat_natCast, Nat.mul_comm]
  exact Nat.div_add_mod i b.cols

theorem slot_inj {b : Board α} {p q : Coord} (hp : b.Holds p) (hq : b.Holds q)
    (h : b.slot p = b.slot q) : p = q := by
  rw [← place_slot hp, h, place_slot hq]

/-- The value at a place, none off the board. -/
def get? (b : Board α) (p : Coord) : Option α :=
  if b.Holds p then b.cells[b.slot p]? else none

/-- The board with another value at one place; a place off the board changes nothing. -/
def set (b : Board α) (p : Coord) (v : α) : Board α where
  rows := b.rows
  cols := b.cols
  cells := if b.Holds p then b.cells.setIfInBounds (b.slot p) v else b.cells
  size_cells := by split <;> simp [b.size_cells]

/-- The board with the same value everywhere. -/
def replicate (rows cols : Nat) (v : α) : Board α where
  rows := rows
  cols := cols
  cells := Array.replicate (rows * cols) v
  size_cells := by simp

/-- The board with every value changed as its place demands. -/
def mapPlaces (b : Board α) (f : Coord → α → β) : Board β where
  rows := b.rows
  cols := b.cols
  cells := b.cells.mapIdx fun i v => f (b.place i) v
  size_cells := by simp [b.size_cells]

/-- The places with their values, row by row. -/
def places (b : Board α) : List (Coord × α) :=
  b.cells.toList.zipIdx.map fun v => (b.place v.2, v.1)

/-- The rows of the board. -/
def toRows (b : Board α) : List (List α) :=
  (List.range b.rows).map fun r => (b.cells.extract (r * b.cols) ((r + 1) * b.cols)).toList

theorem isSome_get? {b : Board α} {p : Coord} : (b.get? p).isSome ↔ b.Holds p := by
  unfold get?
  split
  · next h => simp [h, slot_lt h]
  · next h => simp [h]

theorem get?_of_holds {b : Board α} {p : Coord} (h : b.Holds p) :
    b.get? p = b.cells[b.slot p]? := if_pos h

theorem get?_of_not_holds {b : Board α} {p : Coord} (h : ¬ b.Holds p) : b.get? p = none :=
  if_neg h

@[simp] theorem holds_set {b : Board α} {p q : Coord} {v : α} :
    (b.set p v).Holds q ↔ b.Holds q := Iff.rfl

@[simp] theorem holds_mapPlaces {b : Board α} {f : Coord → α → β} {p : Coord} :
    (b.mapPlaces f).Holds p ↔ b.Holds p := Iff.rfl

/-- **A write changes what is read at its own place only.** -/
theorem get?_set {b : Board α} {p q : Coord} {v : α} :
    (b.set p v).get? q = if p = q ∧ b.Holds p then some v else b.get? q := by
  by_cases hq : b.Holds q
  · rw [get?_of_holds (holds_set.2 hq), get?_of_holds hq]
    have hs : (b.set p v).slot q = b.slot q := rfl
    rw [hs]
    by_cases hp : b.Holds p
    · have hc : (b.set p v).cells = b.cells.setIfInBounds (b.slot p) v := if_pos hp
      rw [hc, Array.getElem?_setIfInBounds]
      by_cases e : p = q
      · subst e; simp [hp, slot_lt hp]
      · -- two places on the board never share a slot
        have hne : b.slot p ≠ b.slot q := fun h => e (slot_inj hp hq h)
        simp [e, hne]
    · have hc : (b.set p v).cells = b.cells := if_neg hp
      simp [hc, hp]
  · have e : ¬ (p = q ∧ b.Holds p) := fun h => hq (h.1 ▸ h.2)
    rw [if_neg e, get?_of_not_holds hq, get?_of_not_holds (fun h => hq (holds_set.1 h))]

/-- **A change given place by place acts on what is read at that place.** -/
theorem get?_mapPlaces {b : Board α} {f : Coord → α → β} {p : Coord} :
    (b.mapPlaces f).get? p = (b.get? p).map (f p) := by
  by_cases hp : b.Holds p
  · rw [get?_of_holds (holds_mapPlaces.2 hp), get?_of_holds hp]
    have hs : (b.mapPlaces f).slot p = b.slot p := rfl
    have hc : (b.mapPlaces f).cells = b.cells.mapIdx fun i v => f (b.place i) v := rfl
    rw [hs, hc, Array.getElem?_mapIdx, place_slot hp]
  · rw [get?_of_not_holds hp, get?_of_not_holds (fun h => hp (holds_mapPlaces.1 h))]
    rfl

/-- The listed places are those of the board, each with the value read there. -/
theorem mem_places {b : Board α} {p : Coord} {v : α} : (p, v) ∈ b.places ↔ b.get? p = some v := by
  simp only [places, List.mem_map, Prod.mk.injEq, Prod.exists]
  constructor
  · rintro ⟨w, i, hm, hp, rfl⟩
    have hi : b.cells[i]? = some w := by
      simpa using List.mk_mem_zipIdx_iff_getElem?.1 hm
    have hlt : i < b.cells.size := (Array.getElem?_eq_some_iff.1 hi).1
    rw [← hp, get?_of_holds (holds_place hlt), slot_place, hi]
  · intro h
    have hp : b.Holds p := isSome_get?.1 (by simp [h])
    rw [get?_of_holds hp] at h
    exact ⟨v, b.slot p, List.mk_mem_zipIdx_iff_getElem?.2 (by simpa using h), place_slot hp, rfl⟩

end Board

end GatedMaze
