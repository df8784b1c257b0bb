import GatedMaze.Proofs.Legs
import GatedMaze.Quadrants

/-!
# Quadrants are regions

A quadrant takes in its leading key and all keys left over that have a leg with it. In the table of
a maze these are the keys of one region, so two keys have the same quadrant exactly when a walk
joins them.

* `gather_cons`, `of?_gather`: what one pass over the keys assigns.
* `Maze.Regions.gather`: one more quadrant keeps whole regions together.
* `assignQuadrants_spec`: every key has a quadrant within bounds.
* `Maze.quadrant_eq_iff`: keys of one quadrant are the keys of one region.
-/

namespace GatedMaze

namespace Homes

variable {legs : LegTable} {lead q k j x : Int} {keys ks : List Int} {h h' : Homes}
  {next next' : Option Int}

theorem holds_eq_true_iff : h.holds k = true ↔ ∃ x, h.of? k = some x := Option.isSome_iff_exists

theorem holds_eq_false_iff : h.holds k = false ↔ h.of? k = none := Option.isSome_eq_false_iff.trans
  Option.isNone_iff_eq_none

/-- A key that belongs to the region of a leading key: that key itself or one that has a leg with
it. -/
def Follows (legs : LegTable) (lead k : Int) : Prop :=
  k = lead ∨ ∃ leg, legs.get lead k = .ok (some leg)

/-- **One key of a pass**: it has a quadrant already, is assigned one, or is left over. -/
theorem gather_cons {r : Homes × Option Int} (hr : gather legs lead q (k :: ks) h next = .ok r) :
    (∃ x, h.of? k = some x) ∧ gather legs lead q ks h next = .ok r ∨
      h.of? k = none ∧ Follows legs lead k ∧ gather legs lead q ks (h.assign k q) next = .ok r ∨
      h.of? k = none ∧ ¬ Follows legs lead k ∧
        gather legs lead q ks h (next <|> some k) = .ok r := by
  rw [gather] at hr
  split at hr
  · next hk => exact .inl ⟨holds_eq_true_iff.1 hk, hr⟩
  · next hk =>
    have hnone : h.of? k = none := holds_eq_false_iff.1 (Bool.not_eq_true _ ▸ hk)
    split at hr
    · next he => exact .inr (.inl ⟨hnone, .inl he, hr⟩)
    · next he =>
      split at hr
      · cases hr
      · next leg hg => exact .inr (.inl ⟨hnone, .inr ⟨leg, hg⟩, hr⟩)
      · next hg =>
        refine .inr (.inr ⟨hnone, ?_, hr⟩)
        rintro (he' | ⟨leg, hl⟩)
        · exact he he'
        · rw [hg] at hl; cases hl

/-- **What a pass assigns**: its quadrant to the keys without one that follow the leading key. -/
theorem of?_gather (hr : gather legs lead q ks h next = .ok (h', next')) :
    h'.of? j = some x ↔
      h.of? j = some x ∨ h.of? j = none ∧ j ∈ ks ∧ Follows legs lead j ∧ x = q := by
  induction ks generalizing h next with
  | nil =>
    rw [gather, Except.ok.injEq, Prod.mk.injEq] at hr
    simp [hr.1]
  | cons k ks ih =>
    rw [List.mem_cons]
    rcases gather_cons hr with ⟨⟨y, hy⟩, hr⟩ | ⟨hnone, hf, hr⟩ | ⟨hnone, hf, hr⟩
    · rw [ih hr]
      by_cases e : j = k
      · subst e; simp [hy]
      · simp [e]
    · rw [ih hr, of?_assign]
      by_cases e : j = k
      · subst e; simp [hnone, hf, eq_comm]
      · simp [e, Ne.symm e]
    · rw [ih hr]
      by_cases e : j = k
      · subst e; simp [hf]
      · simp [e]

/-- The key that leads the next quadrant is one of those of the pass. -/
theorem mem_of_gather (hr : gather legs lead q ks h next = .ok (h', some k)) :
    next = some k ∨ k ∈ ks := by
  induction ks generalizing h next with
  | nil =>
    rw [gather, Except.ok.injEq, Prod.mk.injEq] at hr
    exact .inl hr.2
  | cons j ks ih =>
    rw [List.mem_cons]
    rcases gather_cons hr with ⟨-, hr⟩ | ⟨-, -, hr⟩ | ⟨-, -, hr⟩
    · exact (ih hr).imp_right .inr
    · exact (ih hr).imp_right .inr
    · rcases ih hr with hn | hk
      · cases next with
        | none => exact .inr (.inl (Option.some.inj hn).symm)
        | some i => exact .inl hn
      · exact .inr (.inr hk)

/-- What further quadrants keep, one quadrant keeps. `P n h` is said of the quadrants below `n`. -/
theorem fill_invariant {P : Int → Homes → Prop} {n : Nat}
    (hstep : ∀ q lead h h' next, lead ∈ keys → P q h →
      gather legs lead q keys h none = .ok (h', next) → P (q + 1) h')
    (hnext : ∀ k, next = some k → k ∈ keys) (hP : P q h)
    (hr : fill legs keys n q next h = .ok h') : ∃ q' ≤ q + n, P q' h' := by
  induction n generalizing q next h with
  | zero =>
    rw [fill, Except.ok.injEq] at hr
    exact ⟨q, by omega, hr ▸ hP⟩
  | succ n ih =>
    cases next with
    | none =>
      rw [fill, Except.ok.injEq] at hr
      exact ⟨q, by omega, hr ▸ hP⟩
    | some lead =>
      rw [fill] at hr
      split at hr
      · cases hr
      · next h₁ next₁ hg =>
        have hmem : ∀ k, next₁ = some k → k ∈ keys := by
          rintro k rfl
          exact (mem_of_gather hg).resolve_left (by simp)
        obtain ⟨q', hq', hP'⟩ := ih hmem (hstep q lead h h₁ next₁ (hnext lead rfl) hP hg) hr
        exact ⟨q', by omega, hP'⟩

/-- Quadrants numbered from zero on, up to a bound. -/
def Below (q : Int) (h : Homes) : Prop := 0 ≤ q ∧ ∀ j x, h.of? j = some x → 0 ≤ x ∧ x < q

theorem Below.gather (hb : Below q h) (hr : gather legs lead q ks h next = .ok (h', next')) :
    Below (q + 1) h' := by
  obtain ⟨h0, hb⟩ := hb
  refine ⟨by omega, fun j x hj => ?_⟩
  rcases (of?_gather hr).1 hj with hj | ⟨-, -, -, rfl⟩
  · have := hb j x hj
    omega
  · omega

theorem of?_empty : Homes.empty.of? k = none := rfl

end Homes

open Homes

variable {keys : List Int} {legs t : LegTable} {homes : Homes} {n k j x : Int}

/-- The quadrants of keys are filled one after the other, and no key is left over. -/
theorem assignQuadrants_ok (h : assignQuadrants keys legs n = .ok homes) :
    fill legs (keys.mergeSort fun a b => a ≤ b) n.toNat 0
        (keys.mergeSort fun a b => a ≤ b).head? .empty = .ok homes ∧
      ∀ k ∈ keys, ∃ x, homes.of? k = some x := by
  obtain ⟨homes', hf, hrest⟩ := bind_ok_iff.1 h
  split at hrest
  · next hnil =>
    obtain rfl := Except.ok.inj hrest
    refine ⟨hf, fun k hk => ?_⟩
    have := List.filter_eq_nil_iff.1 hnil k (List.mem_mergeSort.2 hk)
    exact holds_eq_true_iff.1 (by simpa using this)
  · cases hrest

/-- The keys that no quadrant has taken in are left over. -/
theorem assignQuadrants_of_fill {ks : List Int} (hsort : (keys.mergeSort fun a b => a ≤ b) = ks)
    (hf : fill legs ks n.toNat 0 (ks.find? fun k => !Homes.empty.holds k) .empty = .ok homes) :
    assignQuadrants keys legs n =
      match ks.filter fun k => !homes.holds k with
      | [] => .ok homes
      | left => .error (.maze (.unassigned left n)) := by
  have hhead : ks.head? = ks.find? fun k => !Homes.empty.holds k := by cases ks <;> rfl
  rw [← hhead] at hf
  rw [assignQuadrants, hsort]
  show Except.bind (fill legs ks n.toNat 0 ks.head? .empty) _ = _
  rw [hf]
  show (match ks.filter fun k => !homes.holds k with
    | [] => pure homes
    | left => Except.error (Fault.maze (.unassigned left n))) = _
  cases ks.filter fun k => !homes.holds k <;> rfl

/-- **Every key has a quadrant, and its number is below their count.** -/
theorem assignQuadrants_spec (h : assignQuadrants keys legs n = .ok homes) (hk : k ∈ keys) :
    ∃ x, homes.of? k = some x ∧ 0 ≤ x ∧ x < n := by
  obtain ⟨hf, hall⟩ := assignQuadrants_ok h
  obtain ⟨x, hx⟩ := hall k hk
  obtain ⟨q, hq, -, hbelow⟩ := fill_invariant (P := Below)
    (fun q lead h h' next _ hb hg => hb.gather hg) (fun k hk => List.mem_of_head? hk)
    ⟨Int.le_refl 0, by simp [of?_empty]⟩ hf
  have := hbelow k x hx
  exact ⟨x, hx, by omega, by omega⟩

namespace Maze

variable {m : Maze} {i lead q : Int} {h h' : Homes} {ks : List Int} {next next' : Option Int}

/-- Whether a walk joins two keys. -/
def SameRegion (m : Maze) (j k : Int) : Prop :=
  ∃ p q, m.landmark? p = some j ∧ m.landmark? q = some k ∧ m.Joined p q

theorem ne_startId_of_mem (hk : k ∈ m.keyIds) : k ≠ m.startId :=
  fun e => startId_notMem_keyIds (e ▸ hk)

theorem exists_landmark_of_mem (hk : k ∈ m.keyIds) : ∃ p, m.landmark? p = some k := by
  obtain ⟨l, p, hp, rfl⟩ := mem_keyIds.1 hk
  exact ⟨p, landmark?_of_key hp⟩

theorem SameRegion.symm (hjk : m.SameRegion j k) : m.SameRegion k j := by
  obtain ⟨p, q, hp, hq, hw⟩ := hjk
  exact ⟨q, p, hq, hp, hw.symm (isOpen_of_landmark? hp)⟩

theorem SameRegion.trans (hij : m.SameRegion i j) (hjk : m.SameRegion j k) (hj : j ∈ m.keyIds) :
    m.SameRegion i k := by
  obtain ⟨p, q, hp, hq, hw⟩ := hij
  obtain ⟨q', r, hq', hr, hw'⟩ := hjk
  obtain rfl := landmark_unique hq hq' (ne_startId_of_mem hj)
  exact ⟨p, r, hp, hr, hw.trans hw'⟩

/-- In the table of a maze a key follows another one when a walk joins them. -/
theorem follows_iff (ht : m.legs = .ok t) (hj : j ∈ m.keyIds) (hk : k ∈ m.keyIds) :
    Follows t j k ↔ m.SameRegion j k := by
  obtain ⟨hc, hcov, -⟩ := legs_ok ht
  constructor
  · rintro (rfl | ⟨leg, hl⟩)
    · obtain ⟨p, hp⟩ := exists_landmark_of_mem hk
      exact ⟨p, p, hp, hp, [], walk_nil_iff.2 rfl⟩
    · obtain ⟨-, p, q, hp, hq, ds, ⟨hw, -⟩, -⟩ := hc.sound j k leg hl
      exact ⟨p, q, hp, hq, ds, hw⟩
  · rintro ⟨p, q, hp, hq, hw⟩
    by_cases e : k = j
    · exact .inl e
    · exact .inr (hcov p j hp q k hq e hw)

/-- Quadrants below a bound that are whole regions. -/
structure Regions (m : Maze) (q : Int) (h : Homes) : Prop where
  below : Below q h
  keys : ∀ j x, h.of? j = some x → j ∈ m.keyIds
  whole : ∀ j k x, h.of? j = some x → k ∈ m.keyIds → (h.of? k = some x ↔ m.SameRegion j k)

/-- **One more quadrant keeps whole regions together.** -/
theorem Regions.gather (ht : m.legs = .ok t) (hlead : lead ∈ m.keyIds)
    (hks : ∀ k, k ∈ ks ↔ k ∈ m.keyIds) (hm : m.Regions q h)
    (hr : gather t lead q ks h next = .ok (h', next')) : m.Regions (q + 1) h' where
  below := hm.below.gather hr
  keys := by
    intro j x hj
    rcases (of?_gather hr).1 hj with hj | ⟨-, hmem, -⟩
    · exact hm.keys j x hj
    · exact (hks j).1 hmem
  whole := by
    intro j k x hj hk
    rw [of?_gather hr]
    rcases (of?_gather hr).1 hj with hj | ⟨hnone, hmem, hf, rfl⟩
    · -- an earlier quadrant gets no more keys
      have hx := hm.below.2 j x hj
      rw [← hm.whole j k x hj hk]
      constructor
      · rintro (h | ⟨-, -, -, rfl⟩)
        · exact h
        · omega
      · exact .inl
    · have hj := (hks j).1 hmem
      have hlj := (follows_iff ht hlead hj).1 hf
      constructor
      · rintro (h | ⟨-, -, hf', -⟩)
        · have := hm.below.2 k x h
          omega
        · exact hlj.symm.trans ((follows_iff ht hlead hk).1 hf') hlead
      · intro hjk
        refine .inr ⟨?_, (hks k).2 hk, (follows_iff ht hlead hk).2 (hlj.trans hjk hj), rfl⟩
        -- had the key a quadrant, `j` would have it too
        cases hy : h.of? k with
        | none => rfl
        | some y =>
          rw [(hm.whole k j y hy hj).2 hjk.symm] at hnone
          cases hnone

/-- The quadrants of a maze are regions. -/
theorem regions_of_assignQuadrants (ht : m.legs = .ok t)
    (hh : assignQuadrants m.keyIds t n = .ok homes) : ∃ q, m.Regions q homes := by
  obtain ⟨hf, -⟩ := assignQuadrants_ok hh
  obtain ⟨q, -, hq⟩ := fill_invariant (P := m.Regions)
    (fun q lead h h' next hlead hm hg => hm.gather ht (List.mem_mergeSort.1 hlead)
      (fun k => List.mem_mergeSort) hg) (fun k hk => List.mem_of_head? hk)
    ⟨⟨Int.le_refl 0, by simp [of?_empty]⟩, by simp [of?_empty], by simp [of?_empty]⟩ hf
  exact ⟨q, hq⟩

/-- **Keys of one quadrant are the keys of one region.** -/
theorem quadrant_eq_iff (ht : m.legs = .ok t) (hh : assignQuadrants m.keyIds t n = .ok homes)
    (hj : homes.of? j = some x) (hk : k ∈ m.keyIds) :
    homes.of? k = some x ↔ m.SameRegion j k := by
  obtain ⟨q, hq⟩ := regions_of_assignQuadrants ht hh
  exact hq.whole j k x hj hk

/-- Only keys have quadrants. -/
theorem mem_keyIds_of_quadrant (ht : m.legs = .ok t) (hh : assignQuadrants m.keyIds t n = .ok homes)
    (hj : homes.of? j = some x) : j ∈ m.keyIds := by
  obtain ⟨q, hq⟩ := regions_of_assignQuadrants ht hh
  exact hq.keys j x hj

end Maze

end GatedMaze
