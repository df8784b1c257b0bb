import GatedMaze.Proofs.Counts

/-!
# Crews that walk alike

Two crews walk alike when each accepts the orders that the other one accepts, with the same moves. A
planner cannot tell them apart: the same orders are kept, they lead into the same states, and the plans
have the same moves, the same order and the same number of states.

* `WalkAlike.kept_iff`, `WalkAlike.leads_iff`: the same orders are kept and lead into the same states.
* `solve_of_walkAlike`: the outcomes of the planners.
-/

namespace GatedMaze

open Walker

variable {legs : LegTable} {start : Int} {homes homes' : Option Homes} {keys o : List Int} {k : Int}
  {w : Walker}

/-- Whether the orders of some keys are accepted alike, with the same moves. -/
def WalkAlike (legs : LegTable) (start : Int) (homes homes' : Option Homes) (keys : List Int) : Prop :=
  ∀ o : List Int, (∀ k ∈ o, k ∈ keys) → ∀ c,
    (∃ w, along legs start homes o = .ok w ∧ w.walked = c) ↔
      ∃ w, along legs start homes' o = .ok w ∧ w.walked = c

theorem WalkAlike.symm (h : WalkAlike legs start homes homes' keys) :
    WalkAlike legs start homes' homes keys :=
  fun o ho c => (h o ho c).symm

theorem WalkAlike.along (h : WalkAlike legs start homes homes' keys) (ho : ∀ k ∈ o, k ∈ keys)
    (hw : along legs start homes o = .ok w) :
    ∃ w', along legs start homes' o = .ok w' ∧ w'.walked = w.walked :=
  (h o ho w.walked).1 ⟨w, hw, rfl⟩

/-- An order is kept when its front is and the fronts of its rivals are kept alike. -/
theorem WalkAlike.kept_append {q : List Int} (h : WalkAlike legs start homes homes' keys)
    (ho : ∀ x ∈ q ++ [k], x ∈ keys)
    (hq : ∀ q', q'.Perm q → (Kept legs start homes q' ↔ Kept legs start homes' q'))
    (hk : Kept legs start homes (q ++ [k])) : Kept legs start homes' (q ++ [k]) := by
  obtain ⟨hkq, w, hw, hmin⟩ := kept_append_iff.1 hk
  obtain ⟨w', hw', he⟩ := h.along ho hw
  refine kept_append_iff.2 ⟨(hq q (.refl q)).1 hkq, w', hw', fun q₁ v' hkept hp hv' => ?_⟩
  have ho₁ : ∀ x ∈ q₁ ++ [k], x ∈ keys := fun x hx => ho x ((hp.append_right [k]).mem_iff.1 hx)
  obtain ⟨v, hv, hv'⟩ := h.symm.along ho₁ hv'
  have := hmin q₁ v ((hq q₁ hp).2 hkept) hp hv
  omega

/-- **The same orders are kept.** -/
theorem WalkAlike.kept_iff (h : WalkAlike legs start homes homes' keys) (ho : ∀ k ∈ o, k ∈ keys) :
    Kept legs start homes o ↔ Kept legs start homes' o := by
  induction hn : o.length generalizing o with
  | zero =>
    rw [List.length_eq_zero_iff.1 hn]
    exact ⟨fun _ => kept_nil, fun _ => kept_nil⟩
  | succ n ih =>
    have hne : o ≠ [] := by
      rintro rfl
      cases hn
    obtain ⟨q, k, rfl⟩ := (List.eq_nil_or_concat' o).resolve_left hne
    have hlen : q.length = n := by simpa using hn
    have hq : ∀ q', q'.Perm q → (Kept legs start homes q' ↔ Kept legs start homes' q') :=
      fun q' hp => ih (fun x hx => ho x (List.mem_append_left _ (hp.mem_iff.1 hx)))
        (hp.length_eq.trans hlen)
    exact ⟨h.kept_append ho hq, h.symm.kept_append ho fun q' hp => (hq q' hp).symm⟩

variable {crew crew' : Crew} {b b' : Bool}

/-- The states into which kept orders lead are those of a crew that walks alike. -/
theorem WalkAlike.leads (h : WalkAlike legs start crew.homes? crew'.homes? keys) {s : State}
    {e : Entry} (hl : (⟨legs, keys, start, crew, b⟩ : Problem).Leads o s e) :
    ∃ e', (⟨legs, keys, start, crew', b'⟩ : Problem).Leads o s e' := by
  obtain ⟨q, w, ho, hsub, hk, hw, hs, -⟩ := hl
  obtain ⟨w', hw', -⟩ := h.along hsub hw
  have hheld : w'.held = s.held := (held_eq_of_along hw hw').trans hs
  exact ⟨_, q, w', ho, hsub, (h.kept_iff hsub).1 hk, hw', hheld, rfl⟩

/-- **Crews that walk alike have the same plans**: there is none for both, or there are plans with the
same moves, the same order and the same number of states. -/
theorem solve_of_walkAlike (h : WalkAlike legs start crew.homes? crew'.homes? keys)
    (hp : (⟨legs, keys, start, crew, b⟩ : Problem).Fits)
    (hp' : (⟨legs, keys, start, crew', b'⟩ : Problem).Fits) (keep : Bool) :
    let result := ((Planner.ofProblem ⟨legs, keys, start, crew, b⟩).solve keep).2.outcome
    let result' := ((Planner.ofProblem ⟨legs, keys, start, crew', b'⟩).solve keep).2.outcome
    (result = .error (.impasse (.noOrder keys.length)) ∧
        result' = .error (.impasse (.noOrder keys.length))) ∨
      ∃ plan plan', result = .ok plan ∧ result' = .ok plan' ∧ plan.cost = plan'.cost ∧
        plan.order = plan'.order ∧ plan.states = plan'.states := by
  intro result result'
  have hstates : ∀ plan, result = .ok plan → _ := fun plan => Problem.states_of_solve hp
  have hstates' : ∀ plan, result' = .ok plan → _ := fun plan => Problem.states_of_solve hp'
  have hspec := Problem.solve_spec hp keep
  have hspec' := Problem.solve_spec hp' keep
  change Problem.Answers _ result at hspec
  change Problem.Answers _ result' at hspec'
  revert hspec hspec' hstates hstates'
  generalize result = r
  generalize result' = r'
  intro hstates hstates' hspec hspec'
  have hsub : ∀ {o}, IsOrdering keys o → ∀ k ∈ o, k ∈ keys := fun ho k hk => (ho.2 k).1 hk
  cases hspec with
  | none none_kept =>
    cases hspec' with
    | none => exact .inl ⟨rfl, rfl⟩
    | plan plan' w' ordering' kept' =>
      exact absurd ((h.kept_iff (hsub ordering')).2 kept') (none_kept _ ordering')
  | plan plan w ordering kept along cost homes least =>
    cases hspec' with
    | none none_kept' =>
      exact absurd ((h.kept_iff (hsub ordering)).1 kept) (none_kept' _ ordering)
    | plan plan' w' ordering' kept' along' cost' homes' least' =>
      have hkept := (h.kept_iff (hsub ordering)).1 kept
      have hkept' := (h.kept_iff (hsub ordering')).2 kept'
      obtain ⟨v, hv, hvc⟩ := h.along (hsub ordering) along
      obtain ⟨v', hv', hvc'⟩ := h.symm.along (hsub ordering') along'
      -- neither order is preferred to the other
      have h1 : w.walked < v'.walked ∨ w.walked = v'.walked ∧
          plan.order.getLast?.getD start ≤ plan'.order.getLast?.getD start :=
        least plan'.order v' ordering' hkept' hv'
      have h2 : w'.walked < v.walked ∨ w'.walked = v.walked ∧
          plan'.order.getLast?.getD start ≤ plan.order.getLast?.getD start :=
        least' plan.order v ordering hkept hv
      have hcost : w.walked = w'.walked := by omega
      have hlast : plan.order.getLast?.getD start = plan'.order.getLast?.getD start := by omega
      have hperm : plan.order.Perm plan'.order :=
        (List.perm_ext_iff_of_nodup ordering.1 ordering'.1).2 fun k =>
          (ordering.2 k).trans (ordering'.2 k).symm
      refine .inr ⟨plan, plan', rfl, rfl, by omega,
        kept.unique hkept' hperm (getLast?_eq_of_perm hperm hlast), ?_⟩
      rw [hstates plan rfl, hstates' plan' rfl]
      congr 1
      ext s
      constructor
      · rintro ⟨o, e, hl⟩
        obtain ⟨e', hl'⟩ := h.leads hl
        exact ⟨o, e', hl'⟩
      · rintro ⟨o, e, hl⟩
        obtain ⟨e', hl'⟩ := h.symm.leads hl
        exact ⟨o, e', hl'⟩

end GatedMaze
