import GatedMaze.Maze.Reader
import GatedMaze.Proofs.Legs
import Mathlib

/-!
# The table of a maze holds distances

The legs of a maze are found by one search from every key and every start, and each search writes over
what earlier ones wrote. What stands in the table in the end does not depend on that: an entry is blank
when no walk joins its places and else holds how many moves they are apart.

* `measures_keys`: the entry of two keys.
* `measures_start`: the entry of a key and the id that all starts share. A walk joins the key to one start
  at most, or the maze has no table.
* `legs_hold_distances`: when there is a table, what it holds, and what is reported otherwise.
-/

namespace GatedMaze.Maze

variable {m : Maze} {p q : Coord} {a b : Int} {k l : Letter} {leg : Leg} {t : LegTable}

/-- What an entry says about two places: it is blank when no walk joins them, and else holds how many
moves they are apart. -/
def Measures (m : Maze) (p q : Coord) : Option Leg → Prop
  | none => ¬ m.Joined p q
  | some leg => ∃ n : Nat, m.Apart p n q ∧ leg.distance = n

theorem LegBetween.measures (h : m.LegBetween p q leg) : m.Measures p q (some leg) := by
  obtain ⟨ds, ⟨hw, hmin⟩, hd, -⟩ := h
  refine ⟨ds.length, ⟨⟨ds, hw, rfl⟩, ?_⟩, hd.symm⟩
  rintro n ⟨es, he, rfl⟩
  exact hmin es he

theorem Charted.exists_get (hc : m.Charted t) (ha : 0 ≤ a ∧ a < m.startId + 1)
    (hb : 0 ≤ b ∧ b < m.startId + 1) : ∃ v, t.get a b = .ok v :=
  PairTable.exists_get ⟨(hc.holds a).2 ha, (hc.holds b).2 hb⟩

/-- **The entry of two keys.** -/
theorem measures_keys (ht : m.legs = .ok t) (hp : m.at? p = some (.key k))
    (hq : m.at? q = some (.key l)) (hkl : k ≠ l) :
    ∃ v, t.get k.val l.val = .ok v ∧ m.Measures p q v := by
  obtain ⟨hc, hcov, -⟩ := legs_ok ht
  have hp' := landmark?_of_key hp
  have hq' := landmark?_of_key hq
  have hk := val_lt_startId hp
  have hl := val_lt_startId hq
  obtain ⟨v, hv⟩ := hc.exists_get (landmark?_range hp') (landmark?_range hq')
  refine ⟨v, hv, ?_⟩
  cases v with
  | none =>
    intro hj
    have hne : (l.val : Int) ≠ k.val := fun e => hkl (Fin.ext (by omega))
    obtain ⟨leg, hleg⟩ := hcov p _ hp' q _ hq' hne hj
    rw [hv] at hleg
    cases hleg
  | some leg =>
    obtain ⟨-, x, y, hx, hy, hleg⟩ := hc.sound _ _ leg hv
    obtain rfl := landmark_unique hp' hx (by omega)
    obtain rfl := landmark_unique hq' hy (by omega)
    exact hleg.measures

/-- **The entry of a key and the starts**: it is blank when no start is joined to the key, and else only
one is, from which it holds the distance. -/
theorem measures_start (ht : m.legs = .ok t) (hp : m.at? p = some (.key k)) :
    ∃ v, t.get k.val m.startId = .ok v ∧
      (v = none ∧ (∀ s, m.at? s = some .start → ¬ m.Joined s p) ∨
        ∃ s, m.at? s = some .start ∧ m.Joined s p ∧
          (∀ x, m.at? x = some .start → m.Joined x p → x = s) ∧ m.Measures s p v) := by
  obtain ⟨hc, hcov, halone⟩ := legs_ok ht
  have hp' := landmark?_of_key hp
  have hk := val_lt_startId hp
  obtain ⟨v, hv⟩ := hc.exists_get (landmark?_range hp') (b := m.startId) (by omega)
  refine ⟨v, hv, ?_⟩
  cases v with
  | none =>
    refine .inl ⟨rfl, fun s hs hj => ?_⟩
    have hj' := hj.symm (isOpen_of_landmark? (landmark?_of_start hs))
    obtain ⟨leg, hleg⟩ := hcov p _ hp' s _ (landmark?_of_start hs) (by omega) hj'
    rw [hv] at hleg
    cases hleg
  | some leg =>
    obtain ⟨-, x, s, hx, hs, hleg⟩ := hc.sound _ _ leg hv
    obtain rfl := landmark_unique hp' hx (by omega)
    have hleg' := hleg.symm hx hs
    obtain ⟨ds, ⟨hw, -⟩, -⟩ := id hleg'
    refine .inr ⟨s, landmark?_eq_start_iff.1 hs, ⟨ds, hw⟩, fun y hy hj => ?_, hleg'.measures⟩
    -- a walk by way of the key joins two starts, which are the same therefore
    have hback : m.Joined p y := hj.symm (isOpen_of_landmark? (landmark?_of_start hy))
    exact halone s (landmark?_eq_start_iff.1 hs) y hy (Joined.trans ⟨ds, hw⟩ hback)

/-- No id has a leg to itself, and the starts have none between them. -/
theorem get_self (ht : m.legs = .ok t) (ha : 0 ≤ a ∧ a ≤ m.startId) : t.get a a = .ok none := by
  obtain ⟨hc, -, -⟩ := legs_ok ht
  obtain ⟨v, hv⟩ := hc.exists_get (a := a) (b := a) (by omega) (by omega)
  cases v with
  | none => exact hv
  | some leg => exact absurd rfl (hc.sound a a leg hv).1

/-- A table that holds the distances of a maze and nothing else between its landmarks. -/
structure HoldsDistances (m : Maze) (t : LegTable) : Prop where
  keys : ∀ p q k l, m.at? p = some (.key k) → m.at? q = some (.key l) → k ≠ l →
    ∃ v, t.get k.val l.val = .ok v ∧ m.Measures p q v
  starts : ∀ p k, m.at? p = some (.key k) → ∃ v, t.get k.val m.startId = .ok v ∧
    (v = none ∧ (∀ s, m.at? s = some .start → ¬ m.Joined s p) ∨
      ∃ s, m.at? s = some .start ∧ m.Joined s p ∧
        (∀ x, m.at? x = some .start → m.Joined x p → x = s) ∧ m.Measures s p v)
  diagonal : ∀ a : Int, 0 ≤ a → a ≤ m.startId → t.get a a = .ok none

/-- **The legs of a maze.** They are refused exactly when a walk joins two starts, in the words of the
first start that is joined to another one and with the place of a nearest such. Otherwise the table holds
the distances of the maze. -/
theorem legs_hold_distances (m : Maze) :
    ((∃ e, m.legs = .error e) ↔ ∃ p q, m.at? p = some .start ∧ m.at? q = some .start ∧ p ≠ q ∧
      m.Joined p q) ∧
    (∀ e, m.legs = .error e → ∃ before s after q, m.starts = before ++ s :: after ∧
      (∀ x ∈ before, m.Alone x) ∧ m.NearestStart s q ∧ e = .defectAt (.sharedRegion s q) q) ∧
    ∀ t, m.legs = .ok t → m.HoldsDistances t := by
  refine ⟨⟨?_, ?_⟩, ?_, ?_⟩
  · rintro ⟨e, he⟩
    rcases m.legs_spec with ⟨t, ht, -⟩ | ⟨before, p, after, q, hps, -, hq, -⟩
    · rw [he] at ht
      cases ht
    · have hp : p ∈ m.starts := hps ▸ List.mem_append_right _ List.mem_cons_self
      exact ⟨p, q, mem_starts.1 hp, hq.start, hq.other.symm, hq.joined⟩
  · rintro ⟨p, q, hp, hq, hne, hj⟩
    rcases m.legs_spec with ⟨t, -, -, -, halone⟩ | ⟨before, s, after, x, -, -, -, he⟩
    · exact absurd (halone p hp q hq hj).symm hne
    · exact ⟨_, he⟩
  · intro e he
    rcases m.legs_spec with ⟨t, ht, -⟩ | ⟨before, s, after, q, hps, hb, hq, he'⟩
    · rw [he] at ht
      cases ht
    · rw [he, Except.error.injEq] at he'
      exact ⟨before, s, after, q, hps, hb, hq, he'⟩
  · intro t ht
    exact ⟨fun p q k l => measures_keys ht, fun p k => measures_start ht,
      fun a h0 ha => get_self ht ⟨h0, ha⟩⟩

example : (Maze.ofText "a.@.@@" >>= Maze.legs) =
    .error (.defectAt (.sharedRegion ⟨0, 2⟩ ⟨0, 4⟩) ⟨0, 4⟩) := by cbv

end GatedMaze.Maze
