import GatedMaze.Proofs.States

/-!
# What the levels of a search leave in the ledger

The ledger of a search holds the entries of the kept orders and nothing else, level by level.

* `fillStates_spec`, `fillLevel_spec`, `fillLevels_spec`: the invariant `Filled` along the states of
  a level, from one level to the next, and along all levels. No level fails, and each counts the
  states that have an entry.
* `exists_leads_of_length`: a level without entries ends the search for good, since the front of a
  kept order is kept.
-/

namespace GatedMaze.Problem

open Walker

variable {p : Problem} {l : Ledger} {n : Nat} {o : List Int} {s t : State} {e : Entry}

/-- The entry of a kept order is written, or it is there already. -/
theorem get?_put_of_leads (hl : p.Filled n l) (h : p.Leads o s e) :
    (l.put s e).1.get? t = if s = t then some e else l.get? t := by
  rw [Ledger.get?_put]
  by_cases hst : s = t
  · subst hst
    rw [if_pos rfl]
    cases ha : l.accepts s e with
    | true => simp
    | false =>
      -- an entry that is no dearer can only be the same one
      rw [if_neg (by simp)]
      unfold Ledger.accepts at ha
      cases hget : l.get? s with
      | none => rw [hget] at ha; cases ha
      | some hit =>
        obtain ⟨o', ho'⟩ := hl.sound s hit hget
        rw [(h.unique ho').2]
  · rw [if_neg hst, if_neg fun h => hst h.1]

/-- No entry is lost when the entry of a kept order is written. -/
theorem get?_put_of_some (hl : p.Filled n l) (h : p.Leads o s e) {f : Entry}
    (hf : l.get? t = some f) : (l.put s e).1.get? t = some f := by
  rw [get?_put_of_leads hl h]
  split
  · next hst =>
    subst hst
    obtain ⟨o', ho'⟩ := hl.sound _ _ hf
    rw [(h.unique ho').2]
  · exact hf

theorem filled_put (hl : p.Filled n l) (h : p.Leads o s e) : p.Filled n (l.put s e).1 := by
  refine ⟨fun t f hf => ?_, fun o' t f ho' hlen => ?_⟩
  · rw [get?_put_of_leads hl h] at hf
    split at hf
    · next hst => subst hst; cases hf; exact ⟨o, h⟩
    · exact hl.sound t f hf
  · rw [get?_put_of_leads hl h]
    split
    · next hst => subst hst; rw [(h.unique ho').2]
    · exact hl.complete o' t f ho' hlen

/-- A state has an entry in a ledger exactly when a kept order leads into it, if all entries of the
ledger come from kept orders and that of the state was offered. -/
theorem isSome_get?_iff (hl : p.Filled n l) (hs : ∀ o e, p.Leads o s e → l.get? s = some e) :
    (l.get? s).isSome = true ↔ ∃ o e, p.Leads o s e := by
  rw [Option.isSome_iff_exists]
  constructor
  · rintro ⟨e, he⟩
    obtain ⟨o, ho⟩ := hl.sound s e he
    exact ⟨o, e, ho⟩
  · rintro ⟨o, e, ho⟩; exact ⟨e, hs o e ho⟩

/-- **Along the states of a level** nothing fails, no entry is lost, each state gets the entry of the
kept order that leads into it, and the states that have an entry are counted. -/
theorem fillStates_spec (hp : p.Fits) {states : List State} (hs : ∀ s ∈ states, p.Next n s)
    (c : Nat) (hl : p.Filled n l) : ∃ l', p.fillStates states c l =
        (l', .ok (c + states.countP fun s => (l'.get? s).isSome)) ∧ p.Filled n l' ∧
      (∀ s e, l.get? s = some e → l'.get? s = some e) ∧
      ∀ s ∈ states, ∀ o e, p.Leads o s e → l'.get? s = some e := by
  induction states generalizing c l with
  | nil => exact ⟨l, rfl, hl, fun _ _ h => h, by simp⟩
  | cons s states ih =>
    have hrest : ∀ t ∈ states, p.Next n t := fun t ht => hs t (List.mem_cons_of_mem s ht)
    obtain ⟨r, hr, hiff⟩ := resolve_spec hp hl (hs s List.mem_cons_self)
    rw [fillStates, hr]
    cases r with
    | none =>
      obtain ⟨l', hfill, hl', hold, hnew⟩ := ih hrest c hl
      have hno : ∀ o e, ¬ p.Leads o s e := fun o e h => by simpa using (hiff e).2 ⟨o, h⟩
      have hsome : (l'.get? s).isSome = false := by
        rw [← Bool.not_eq_true, isSome_get?_iff hl' fun o e h => absurd h (hno o e)]
        rintro ⟨o, e, h⟩; exact hno o e h
      refine ⟨l', ?_, hl', hold, ?_⟩
      · rw [List.countP_cons, hsome]; exact hfill
      · intro t ht o e h
        rcases List.mem_cons.1 ht with rfl | ht
        · exact absurd h (hno o e)
        · exact hnew t ht o e h
    | some entry =>
      obtain ⟨o, ho⟩ := (hiff entry).1 rfl
      obtain ⟨l', hfill, hl', hold, hnew⟩ := ih hrest (c + 1) (filled_put hl ho)
      have hget : l'.get? s = some entry :=
        hold s entry (by rw [get?_put_of_leads hl ho, if_pos rfl])
      refine ⟨l', ?_, hl', ?_, ?_⟩
      · have hcount : c + (states.countP (fun s => (l'.get? s).isSome) + 1) =
            c + 1 + states.countP fun s => (l'.get? s).isSome := by omega
        rw [List.countP_cons_of_pos (by simp [hget]), hcount]
        exact hfill
      · intro t f hf
        exact hold t f (get?_put_of_some hl ho hf)
      · intro t ht o' f h
        rcases List.mem_cons.1 ht with rfl | ht
        · rw [hget, (ho.unique h).2]
        · exact hnew t ht o' f h

/-- The states that a level goes through. -/
def levelStates (p : Problem) (n : Nat) : List State :=
  (subsetsOfSize p.keys n).subsets.flatMap statesOf

theorem next_of_mem_levelStates (hp : p.Fits) (h : s ∈ p.levelStates (n + 1)) : p.Next n s := by
  obtain ⟨held, hheld, hs⟩ := List.mem_flatMap.1 h
  obtain ⟨k, hk, rfl⟩ := List.mem_map.1 hs
  obtain ⟨hkeys, hsize⟩ := subset_of_mem_subsetsOfSize hp.range hheld
  exact ⟨hk, hkeys, hsize⟩

/-- A level goes through all states with so many keys into which a kept order leads. -/
theorem Leads.mem_levelStates (hp : p.Fits) (h : p.Leads o s e) : s ∈ p.levelStates o.length := by
  have hlast := h.mem_last
  obtain ⟨q, w, -, hsub, -, hw, hs, -⟩ := h
  rw [← hs] at hlast
  refine List.mem_flatMap.2 ⟨w.held, mem_subsetsOfSize_of_perm hp.range hsub
    (toList_held_perm hw), List.mem_map.2 ⟨s.last, hlast, ?_⟩⟩
  rw [hs]

/-- **From one level to the next.** The level does not fail, and it counts its states that have an
entry. -/
theorem fillLevel_spec (hp : p.Fits) (hl : p.Filled n l) : ∃ l',
    p.fillLevel (n + 1) l =
        (l', .ok ((p.levelStates (n + 1)).countP fun s => (l'.get? s).isSome)) ∧
      p.Filled (n + 1) l' := by
  obtain ⟨l', hfill, hl', -, hnew⟩ :=
    fillStates_spec hp (fun s hs => next_of_mem_levelStates hp hs) 0 hl
  refine ⟨l', ?_, hl'.sound, fun o s e h hlen => ?_⟩
  · have hstates : (subsetsOfSize p.keys (n + 1 : Nat)).subsets.flatMap statesOf =
        p.levelStates (n + 1) := rfl
    rw [fillLevel]
    simp only [hstates]
    rw [hfill, fault_subsetsOfSize hp.range, Nat.zero_add]
  · rcases Nat.lt_or_ge n o.length with hlt | hle
    · have hn : o.length = n + 1 := by omega
      exact hnew s (hn ▸ h.mem_levelStates hp) o e h
    · exact hl'.complete o s e h hle

/-- **The front of a kept order is kept**, so every smaller level has an entry too. -/
theorem exists_leads_of_length (h : p.Leads o s e) {m : Nat} (hm : 0 < m) (hle : m ≤ o.length) :
    ∃ o' s' e', p.Leads o' s' e' ∧ o'.length = m := by
  obtain ⟨q, w, rfl, hsub, hkept, hw, -⟩ := h
  have hfront : ∀ o : List Int, (∀ k ∈ o, k ∈ p.keys) → p.Kept o → m ≤ o.length →
      ∃ o' s' e', p.Leads o' s' e' ∧ o'.length = m := by
    intro o
    induction o using List.reverseRecOn with
    | nil => intro _ _ hle; simp at hle; omega
    | append_singleton q k ih =>
      intro hsub hkept hle
      by_cases heq : m = (q ++ [k]).length
      · obtain ⟨w, hw⟩ := hkept.exists_along
        obtain ⟨j, e, -, hlead⟩ := exists_leads hkept hsub hw (by simp)
        exact ⟨_, _, _, hlead, heq.symm⟩
      · refine ih (fun x hx => hsub x (List.mem_append_left _ hx)) (GatedMaze.Kept.front hkept) ?_
        simp only [List.length_append, List.length_singleton] at hle heq
        omega
  exact hfront _ hsub hkept hle

/-- **Along all levels.** The search does not fail, also when a level without entries ends it. -/
theorem fillLevels_spec (hp : p.Fits) (m : Nat) (hl : p.Filled n l) :
    (p.fillLevels (List.range' (n + 1) m) l).outcome = .ok () ∧
      p.Filled (n + m) (p.fillLevels (List.range' (n + 1) m) l).ledger := by
  induction m generalizing n l with
  | zero => exact ⟨rfl, hl⟩
  | succ m ih =>
    obtain ⟨l', hfill, hl'⟩ := fillLevel_spec hp hl
    rw [List.range'_succ, fillLevels, hfill]
    simp only
    split
    · next hzero =>
      refine ⟨rfl, hl'.sound, fun o s e h _ => ?_⟩
      rcases Nat.lt_or_ge n o.length with hlt | hle
      · -- an order of so many keys would have an entry on this level
        obtain ⟨o', s', e', h', hlen⟩ := exists_leads_of_length h (by omega : 0 < n + 1) hlt
        have hmem : s' ∈ p.levelStates (n + 1) := hlen ▸ h'.mem_levelStates hp
        have := List.countP_eq_zero.1 hzero s' hmem
        rw [hl'.complete o' s' e' h' (by omega)] at this
        simp at this
      · exact hl'.complete o s e h (by omega)
    · obtain ⟨ho, hf⟩ := ih hl'
      refine ⟨ho, ?_⟩
      have hn : n + (m + 1) = n + 1 + m := by omega
      rw [hn]
      exact hf

/-- The ledger without entries is filled up to no keys. -/
theorem filled_empty : p.Filled 0 .empty := by
  refine ⟨fun s e h => ?_, fun o s e h hlen => ?_⟩
  · simp [Ledger.empty, Ledger.get?] at h
  · obtain ⟨q, w, rfl, -⟩ := h
    simp at hlen

end GatedMaze.Problem
