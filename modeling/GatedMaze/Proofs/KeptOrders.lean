import GatedMaze.Proofs.Orders
import Mathlib.Data.List.Permutation
import Mathlib.Data.Prod.Lex
import Mathlib.Data.Set.Finite.Lemmas

/-!
# Orders that are kept

Of all accepted orders of the same keys with the same last key a planner keeps one, and extends
only orders that it has kept. Which ones these are is said here on orders alone: an order is kept
when the order without its last key is, and no other extension of a kept order to the same keys and
the same last key is cheaper, or as cheap and coming from a smaller key.

* `Kept.unique`: at most one order of the same keys with the same last key is kept.
* `exists_kept_of_extends`: where a kept order can be extended, some kept order is no dearer.
* `exists_kept_le`: if walkers that hold the same keys and stand at the same key always set out from
  the same places, the kept orders are the cheapest ones.
-/

namespace GatedMaze

open Walker

variable {legs : LegTable} {start : Int} {homes : Option Homes}

/-- An order of `n` keys that is kept. Orders `q ++ [k]` compete with each other when their keys are
the same and `q` is kept. -/
def KeptOf (legs : LegTable) (start : Int) (homes : Option Homes) : Nat → List Int → Prop
  | 0, o => o = []
  | n + 1, o => ∃ q k w, o = q ++ [k] ∧ KeptOf legs start homes n q ∧
      along legs start homes o = .ok w ∧
      ∀ q' w', KeptOf legs start homes n q' → q'.Perm q →
        along legs start homes (q' ++ [k]) = .ok w' →
        w.walked < w'.walked ∨
          w.walked = w'.walked ∧ q.getLast?.getD start ≤ q'.getLast?.getD start

/-- An order that is kept. -/
def Kept (legs : LegTable) (start : Int) (homes : Option Homes) (o : List Int) : Prop :=
  KeptOf legs start homes o.length o

theorem kept_nil : Kept legs start homes [] := rfl

variable {o o' q q' : List Int} {w w' : Walker} {k : Int}

/-- **What it takes to be kept**, by the last key. -/
theorem kept_append_iff : Kept legs start homes (q ++ [k]) ↔ Kept legs start homes q ∧
    ∃ w, along legs start homes (q ++ [k]) = .ok w ∧
      ∀ q' w', Kept legs start homes q' → q'.Perm q →
        along legs start homes (q' ++ [k]) = .ok w' →
        w.walked < w'.walked ∨
          w.walked = w'.walked ∧ q.getLast?.getD start ≤ q'.getLast?.getD start := by
  have hlen : (q ++ [k]).length = q.length + 1 := by simp
  unfold Kept
  rw [hlen, KeptOf]
  constructor
  · rintro ⟨q₁, k₁, w, he, hq, hw, hmin⟩
    obtain ⟨rfl, hk⟩ := List.append_inj' he rfl
    rw [List.singleton_inj] at hk; subst hk
    exact ⟨hq, w, hw, fun q' w' hq' hp hw' => hmin q' w' (hp.length_eq ▸ hq') hp hw'⟩
  · rintro ⟨hq, w, hw, hmin⟩
    refine ⟨q, k, w, rfl, hq, hw, fun q' w' hq' hp hw' => ?_⟩
    exact hmin q' w' (hp.length_eq.symm ▸ hq') hp hw'

theorem Kept.front (h : Kept legs start homes (q ++ [k])) : Kept legs start homes q :=
  (kept_append_iff.1 h).1

theorem Kept.exists_along (h : Kept legs start homes o) :
    ∃ w, along legs start homes o = .ok w := by
  cases o using List.reverseRecOn with
  | nil => exact ⟨_, along_nil⟩
  | append_singleton q k =>
    obtain ⟨-, w, hw, -⟩ := kept_append_iff.1 h
    exact ⟨w, hw⟩

theorem getLast?_eq_of_perm {d : Int} (hp : o.Perm o') (h : o.getLast?.getD d = o'.getLast?.getD d) :
    o.getLast? = o'.getLast? := by
  rcases eq_or_ne o [] with rfl | hne
  · rw [List.nil_perm.1 hp]
  · have hne' : o' ≠ [] := fun e => hne (List.perm_nil.1 (e ▸ hp))
    rw [List.getLast?_eq_some_getLast hne, List.getLast?_eq_some_getLast hne'] at h ⊢
    simpa using h

/-- **At most one order of the same keys with the same last key is kept.** -/
theorem Kept.unique (h : Kept legs start homes o) (h' : Kept legs start homes o') (hp : o.Perm o')
    (hl : o.getLast? = o'.getLast?) : o = o' := by
  induction o using List.reverseRecOn generalizing o' with
  | nil => exact (List.nil_perm.1 hp).symm
  | append_singleton q k ih =>
    cases o' using List.reverseRecOn with
    | nil => exact absurd (List.perm_nil.1 hp) (by simp)
    | append_singleton q' k' =>
      obtain rfl : k = k' := by simpa using hl
      have hqq : q.Perm q' := List.perm_append_right_iff _ |>.1 hp
      obtain ⟨hq, w, hw, hmin⟩ := kept_append_iff.1 h
      obtain ⟨hq', w', hw', hmin'⟩ := kept_append_iff.1 h'
      -- neither is preferred to the other, so both come from the same key
      have h1 := hmin q' w' hq' hqq.symm hw'
      have h2 := hmin' q w hq hqq hw
      have hlast : q.getLast?.getD start = q'.getLast?.getD start := by omega
      have hlast : q.getLast? = q'.getLast? := getLast?_eq_of_perm hqq hlast
      rw [ih hq hq' hqq hlast]

/-- **Where a kept order can be extended, some kept order is no dearer.** -/
theorem exists_kept_of_extends (hq : Kept legs start homes q)
    (hw : along legs start homes (q ++ [k]) = .ok w) :
    ∃ q' w', q'.Perm q ∧ Kept legs start homes (q' ++ [k]) ∧
      along legs start homes (q' ++ [k]) = .ok w' ∧ w'.walked ≤ w.walked := by
  -- the rivals are finitely many, so one of them is preferred to all others
  set rivals : Set (List Int × Walker) :=
    {r | r.1.Perm q ∧ Kept legs start homes r.1 ∧ along legs start homes (r.1 ++ [k]) = .ok r.2}
    with hrivals
  have hfin : rivals.Finite := by
    have hinj : Set.InjOn Prod.fst rivals := by
      rintro ⟨a, v⟩ ⟨-, -, hv⟩ ⟨b, v'⟩ ⟨-, -, hv'⟩ rfl
      simp only at hv hv'
      rw [hv, Except.ok.injEq] at hv'
      rw [hv']
    refine Set.Finite.of_finite_image ?_ hinj
    refine Set.Finite.subset (List.finite_toSet q.permutations) ?_
    rintro _ ⟨r, hr, rfl⟩
    exact List.mem_permutations.2 hr.1
  obtain ⟨⟨q', w'⟩, ⟨hp, hk, hw'⟩, hmin⟩ := Set.exists_min_image rivals
    (fun r => toLex (r.2.walked, r.1.getLast?.getD start)) hfin ⟨(q, w), List.Perm.refl q, hq, hw⟩
  refine ⟨q', w', hp, kept_append_iff.2 ⟨hk, w', hw', ?_⟩, hw', ?_⟩
  · intro q₂ w₂ hk₂ hp₂ hw₂
    simpa using Prod.Lex.toLex_le_toLex.1 (hmin (q₂, w₂) ⟨hp₂.trans hp, hk₂, hw₂⟩)
  · have h := Prod.Lex.toLex_le_toLex.1 (hmin (q, w) ⟨List.Perm.refl q, hq, hw⟩)
    simp only at h
    omega

/-- Where a walker can go next, and how far that is, depends only on the keys that it holds and on
the last one of them. -/
def Memoryless (legs : LegTable) (start : Int) (homes : Option Homes) : Prop :=
  ∀ q q' w w' k v, along legs start homes q = .ok w → along legs start homes q' = .ok w' →
    q'.Perm q → q'.getLast? = q.getLast? → next legs start homes w k = .ok v →
    ∃ v', next legs start homes w' k = .ok v' ∧ v'.walked - w'.walked = v.walked - w.walked

/-- Walkers that hold the same keys and stand at the same key have no memory if they always set out
from the same places. -/
theorem memoryless_of_origin (h : ∀ q q' w w' k quadrant, along legs start homes q = .ok w →
    along legs start homes q' = .ok w' → q'.getLast? = q.getLast? →
    quadrantOf homes k = .ok quadrant → w'.originIn start quadrant = w.originIn start quadrant) :
    Memoryless legs start homes := by
  intro q q' w w' k v hw hw' hp hl hv
  obtain ⟨-, -, quadrant, -, hquad, -⟩ := next_eq_ok_iff.1 hv
  have hheld : w'.held = w.held := (held_eq_iff_perm hw' hw).2 hp
  refine next_of_same_origin hheld hquad (fun quadrant' hquad' => ?_) hv
  obtain rfl := Except.ok.inj (hquad.symm.trans hquad')
  exact h q q' w w' k quadrant hw hw' hl hquad

/-- **Without memory the kept orders are the cheapest ones**: every accepted order is matched by a
kept one of the same keys with the same last key that costs no more. -/
theorem exists_kept_le (hm : Memoryless legs start homes)
    (h : along legs start homes o = .ok w) : ∃ o' w', o'.Perm o ∧ o'.getLast? = o.getLast? ∧
      Kept legs start homes o' ∧ along legs start homes o' = .ok w' ∧ w'.walked ≤ w.walked := by
  induction o using List.reverseRecOn generalizing w with
  | nil => exact ⟨[], w, .refl _, rfl, kept_nil, h, le_rfl⟩
  | append_singleton q k ih =>
    obtain ⟨v, hv, hk⟩ := along_append_ok.1 h
    obtain ⟨q₁, v₁, hp₁, hl₁, hkept₁, hv₁, hle₁⟩ := ih hv
    -- the kept order of the front can be extended in the same way
    obtain ⟨w₁, hk₁, hd⟩ := hm q q₁ v v₁ k w hv hv₁ hp₁ hl₁ hk
    obtain ⟨q₂, w₂, hp₂, hkept₂, hw₂, hle₂⟩ :=
      exists_kept_of_extends hkept₁ (along_append_ok.2 ⟨v₁, hv₁, hk₁⟩)
    refine ⟨q₂ ++ [k], w₂, (hp₂.trans hp₁).append_right [k], by simp, hkept₂, hw₂, ?_⟩
    omega

end GatedMaze
