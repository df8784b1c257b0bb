import GatedMaze.Room

/-!
# Tables over unordered pairs

A table over `n` ids has one slot for each unordered pair of them, pairs of an id with itself
included. The slots are stored as a triangle: row `hi` holds the pairs of `hi` with `0, …, hi`.
Main statements:

* `slot_lt`, `slot_eq_iff`: every pair has a slot in the table, and two pairs share it exactly when
  they hold the same two ids;
* `get_set`: a write changes what is read at its own pair only, in either order;
* `get_outside`: a pair with an id outside the table is refused.
-/

namespace GatedMaze

/-- A value for each unordered pair of ids below `n`. -/
structure PairTable (α : Type) where
  n : Nat
  slots : Array α
  size_slots : slots.size = n * (n + 1) / 2

namespace PairTable

variable {α : Type}

/-- The table with the same value in every slot. -/
def replicate (n : Nat) (v : α) : PairTable α where
  n := n
  slots := Array.replicate (n * (n + 1) / 2) v
  size_slots := by simp

/-- The table of a size that was given as any whole number. -/
def ofSize (n : Int) (v : α) : Except Fault (PairTable α) :=
  if n < 0 then .error .negativeTable
  else
    match roomFault? (n * (n + 1) / 2) with
    | some e => .error e
    | none => .ok (replicate n.toNat v)

/-- Whether an id belongs to the table. -/
def Holds (t : PairTable α) (a : Int) : Prop := 0 ≤ a ∧ a < t.n

instance (t : PairTable α) (a : Int) : Decidable (t.Holds a) := by unfold Holds; infer_instance

/-- The slot of a pair in the triangle: those of the rows above it, then `lo` in its own row. -/
def slot (a b : Nat) : Nat := max a b * (max a b + 1) / 2 + min a b

theorem slot_comm (a b : Nat) : slot a b = slot b a := by
  simp [slot, Nat.max_comm, Nat.min_comm]

/-- The slots of row `h` end where those of the next row start. -/
theorem triangle_succ (h : Nat) : (h + 1) * (h + 2) / 2 = h * (h + 1) / 2 + (h + 1) := by
  have : (h + 1) * (h + 2) = h * (h + 1) + 2 * (h + 1) := by
    rw [Nat.mul_comm (h + 1) (h + 2), ← Nat.add_mul]
  rw [this, Nat.add_mul_div_left _ _ (by omega)]

theorem triangle_mono {h n : Nat} (hn : h ≤ n) : h * (h + 1) / 2 ≤ n * (n + 1) / 2 :=
  Nat.div_le_div_right (Nat.mul_le_mul hn (Nat.succ_le_succ hn))

/-- A slot lies in the triangle of the ids below `n`. -/
theorem slot_lt {a b n : Nat} (ha : a < n) (hb : b < n) : slot a b < n * (n + 1) / 2 := by
  have h1 := triangle_succ (max a b)
  have h2 := triangle_mono (h := max a b + 1) (n := n) (by omega)
  have h3 : max a b + 1 + 1 = max a b + 2 := rfl
  rw [h3] at h2
  unfold slot
  omega

theorem slot_row_lt {a b c d : Nat} (h : max a b < max c d) : slot a b < slot c d := by
  have h1 := triangle_succ (max a b)
  have h2 := triangle_mono (h := max a b + 1) (n := max c d) (by omega)
  have h3 : max a b + 1 + 1 = max a b + 2 := rfl
  rw [h3] at h2
  unfold slot
  omega

/-- **Two pairs share a slot exactly when they hold the same two ids.** -/
theorem slot_eq_iff {a b c d : Nat} :
    slot a b = slot c d ↔ (a = c ∧ b = d) ∨ (a = d ∧ b = c) := by
  constructor
  · intro h
    -- in different rows the slots differ; in one row they are as far along as the smaller ids say
    rcases Nat.lt_trichotomy (max a b) (max c d) with hm | hm | hm
    · have := slot_row_lt hm; omega
    · unfold slot at h; rw [hm] at h; omega
    · have := slot_row_lt hm; omega
  · rintro (⟨rfl, rfl⟩ | ⟨rfl, rfl⟩)
    · rfl
    · exact slot_comm a b

/-- The slot of a pair of ids, refused when one of them is outside the table. -/
def index (t : PairTable α) (a b : Int) : Except Fault Nat :=
  if t.Holds a ∧ t.Holds b then .ok (slot a.toNat b.toNat)
  else .error (.pairOutsideTable a b t.n)

theorem slot_lt_size {t : PairTable α} {a b : Int} (h : t.Holds a ∧ t.Holds b) :
    slot a.toNat b.toNat < t.slots.size := by
  unfold Holds at h
  rw [t.size_slots]
  exact slot_lt (by omega) (by omega)

/-- The value of a pair. -/
def get (t : PairTable α) (a b : Int) : Except Fault α :=
  if h : t.Holds a ∧ t.Holds b then
    have := slot_lt_size h
    .ok t.slots[slot a.toNat b.toNat]
  else .error (.pairOutsideTable a b t.n)

/-- The table with another value for a pair. -/
def set (t : PairTable α) (a b : Int) (v : α) : Except Fault (PairTable α) :=
  (t.index a b).map fun i =>
    { n := t.n, slots := t.slots.setIfInBounds i v, size_slots := by simp [t.size_slots] }

/-- The pairs of ids below `n`, row by row. -/
def places (n : Nat) : List (Nat × Nat) :=
  (List.range n).flatMap fun hi => (List.range (hi + 1)).map fun lo => (hi, lo)

/-- Every pair with its value. The slots are not worked out but counted along with the pairs. -/
def pairs (t : PairTable α) : List (Nat × Nat × α) :=
  (places t.n).zipIdx.filterMap fun ((hi, lo), i) => t.slots[i]?.map fun v => (hi, lo, v)

/-- The values in the order of the slots. -/
def values (t : PairTable α) : List α := t.slots.toList

/-- How many slots a table has. -/
def size (t : PairTable α) : Nat := t.slots.size

/-- A write keeps the ids of a table. -/
theorem holds_of_set {t u : PairTable α} {a b : Int} {v : α} (h : t.set a b v = .ok u) (c : Int) :
    u.Holds c ↔ t.Holds c := by
  unfold set index at h
  split at h
  · cases h; exact Iff.rfl
  · simp [Except.map] at h

/-- **A write changes what is read at its own pair only**, whichever id is named first. -/
theorem get_set {t u : PairTable α} {a b c d : Int} {v : α} (h : t.set a b v = .ok u) :
    u.get c d = if (a = c ∧ b = d) ∨ (a = d ∧ b = c) then .ok v else t.get c d := by
  have hu := holds_of_set h
  unfold set index at h
  split at h
  · next hab =>
    cases h
    by_cases hcd : t.Holds c ∧ t.Holds d
    · have hslot : slot a.toNat b.toNat = slot c.toNat d.toNat ↔
          (a = c ∧ b = d) ∨ (a = d ∧ b = c) := by
        unfold Holds at hab hcd
        rw [slot_eq_iff]
        omega
      unfold get
      rw [dif_pos hcd, dif_pos (by rw [hu, hu]; exact hcd)]
      have hw : (t.slots.setIfInBounds (slot a.toNat b.toNat) v)[slot c.toNat d.toNat]? =
          if slot a.toNat b.toNat = slot c.toNat d.toNat then some v
          else t.slots[slot c.toNat d.toNat]? := by
        rw [Array.getElem?_setIfInBounds, if_pos (slot_lt_size hab)]
      have hlt := slot_lt_size hcd
      rw [Array.getElem?_eq_getElem (by simpa using hlt), Array.getElem?_eq_getElem hlt] at hw
      by_cases e : (a = c ∧ b = d) ∨ (a = d ∧ b = c)
      · rw [if_pos (hslot.2 e)] at hw
        rw [if_pos e]; exact congrArg _ (Option.some.inj hw)
      · rw [if_neg (fun h => e (hslot.1 h))] at hw
        rw [if_neg e]; exact congrArg _ (Option.some.inj hw)
    · have hne : ¬ ((a = c ∧ b = d) ∨ (a = d ∧ b = c)) := by
        rintro (⟨rfl, rfl⟩ | ⟨rfl, rfl⟩)
        · exact hcd hab
        · exact hcd hab.symm
      unfold get
      rw [if_neg hne, dif_neg hcd, dif_neg (by rw [hu, hu]; exact hcd)]
  · simp [Except.map] at h

theorem exists_get {t : PairTable α} {a b : Int} (h : t.Holds a ∧ t.Holds b) :
    ∃ v, t.get a b = .ok v := ⟨_, dif_pos h⟩

theorem get_outside {t : PairTable α} {a b : Int} (h : ¬ (t.Holds a ∧ t.Holds b)) :
    t.get a b = .error (.pairOutsideTable a b t.n) := dif_neg h

end PairTable

end GatedMaze
