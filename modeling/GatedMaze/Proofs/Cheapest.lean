import Mathlib.Data.List.Induction

/-!
# The first cheapest of several

A planner compares candidates one after the other and goes over to a later one only when it is
strictly cheaper. `foldl_cheaper` says where that ends: with the cheapest candidate, and with the
first one of several that cost the same.
-/

namespace GatedMaze

variable {β : Type} (cost : β → Int)

/-- The cheaper of two values, the first of them when they cost the same. -/
def cheaperBy : Option β → Option β → Option β
  | none, b => b
  | some a, none => some a
  | some a, some b => if cost b < cost a then some b else some a

/-- **A fold over candidates ends with the cheapest of them**, the first one of several. -/
theorem foldl_cheaper {js : List Int} (hjs : js.Pairwise (· < ·)) (found : Int → Option β) :
    (js.foldl (fun b j => cheaperBy cost b (found j)) none = none ∧ ∀ j ∈ js, found j = none) ∨
      ∃ j ∈ js, ∃ b, found j = some b ∧
        js.foldl (fun b j => cheaperBy cost b (found j)) none = some b ∧
        ∀ j' ∈ js, ∀ b', found j' = some b' → cost b < cost b' ∨ cost b = cost b' ∧ j ≤ j' := by
  induction js using List.reverseRecOn with
  | nil => exact .inl ⟨rfl, by simp⟩
  | append_singleton js i ih =>
    rw [List.pairwise_append] at hjs
    obtain ⟨hjs, -, hlt⟩ := hjs
    rw [List.foldl_append, List.foldl_cons, List.foldl_nil]
    rcases ih hjs with ⟨hr, hnone⟩ | ⟨j, hj, b, hb, hr, hmin⟩
    · rw [hr]
      cases hi : found i with
      | none => exact .inl ⟨rfl, List.forall_mem_append.2 ⟨hnone, List.forall_mem_singleton.2 hi⟩⟩
      | some b =>
        refine .inr ⟨i, by simp, b, hi, rfl, List.forall_mem_append.2
          ⟨fun j' hj' b' hb' => ?_, List.forall_mem_singleton.2 fun b' hb' => ?_⟩⟩
        · rw [hnone j' hj'] at hb'
          cases hb'
        · obtain rfl := Option.some.inj (hi.symm.trans hb')
          exact .inr ⟨rfl, Int.le_refl i⟩
    · rw [hr]
      cases hi : found i with
      | none =>
        refine .inr ⟨j, List.mem_append_left _ hj, b, hb, rfl, List.forall_mem_append.2
          ⟨hmin, List.forall_mem_singleton.2 fun b' hb' => ?_⟩⟩
        rw [hi] at hb'
        cases hb'
      | some c =>
        have hji : j < i := hlt j hj i (by simp)
        -- a later candidate replaces the first cheapest one only when it is strictly cheaper
        by_cases hc : cost c < cost b
        · refine .inr ⟨i, by simp, c, hi, by simp [cheaperBy, hc], List.forall_mem_append.2
            ⟨fun j' hj' b' hb' => ?_, List.forall_mem_singleton.2 fun b' hb' => ?_⟩⟩
          · have := hmin j' hj' b' hb'
            omega
          · obtain rfl := Option.some.inj (hi.symm.trans hb')
            exact .inr ⟨rfl, Int.le_refl i⟩
        · refine .inr ⟨j, List.mem_append_left _ hj, b, hb, by simp [cheaperBy, hc],
            List.forall_mem_append.2 ⟨hmin, List.forall_mem_singleton.2 fun b' hb' => ?_⟩⟩
          obtain rfl := Option.some.inj (hi.symm.trans hb')
          omega

end GatedMaze
