import GatedMaze.Proofs.FirstLegs
import Mathlib

/-!
# One survey

A survey searches a maze from any place of it, be it a wall, and writes what it comes to under an id that is
given with the place. The search visits its region once, in the order of the distances. Of the table the
survey writes the row of its id and nothing else: there it enters each key and, since all starts go by one
id, the start that it comes to last.

* `visitsRegion_search`: the region is visited once.
* `exists_recordLegs`: an id of the table is never refused.
* `get_key_of_survey`, `get_start_of_survey`, `get_of_survey_of_untouched`: what is written, and what is left
  alone.
* `surveyFrom_visits_region`: a survey from any place, under any id of the table.
-/

namespace GatedMaze

namespace Maze

variable {m : Maze} {p q : Coord} {a b c d : Int} {k : Letter} {t u : LegTable} {vs : List Visit}

/-- Visits to a place and to all places that a walk joins to it, each of them once, nearest first. -/
structure VisitsRegion (m : Maze) (p : Coord) (vs : List Visit) : Prop where
  mem_iff : ∀ q, q ∈ vs.map Visit.place ↔ m.Joined p q
  nodup : (vs.map Visit.place).Nodup
  apart : ∀ v ∈ vs, m.Apart p v.moves v.place
  sorted : vs.Pairwise fun v w => v.moves ≤ w.moves

/-- The starts that a walk joins to a place, other than this place, each of them once, nearest first. -/
structure ListsStarts (m : Maze) (p : Coord) (reached : List Coord) : Prop where
  mem_iff : ∀ q, q ∈ reached ↔ m.at? q = some .start ∧ m.Joined p q ∧ q ≠ p
  nodup : reached.Nodup
  sorted : reached.Pairwise fun x y => ∀ n k, m.Apart p n x → m.Apart p k y → n ≤ k

/-- Whether a survey from `p` comes to a landmark with the id `b` at another place than `p`. -/
def Touches (m : Maze) (p : Coord) (b : Int) : Prop :=
  ∃ q, q ≠ p ∧ m.Joined p q ∧ m.landmark? q = some b

/-- The table `u` is the table `t` with the row of the id `a` written by a survey from `p` that came to the
starts `reached`. -/
structure WritesRow (m : Maze) (a : Int) (p : Coord) (reached : List Coord) (t u : LegTable) : Prop where
  /-- A key at another place has a leg, unless its id is that of the row. -/
  key : ∀ q (k : Letter), m.at? q = some (.key k) → m.Joined p q → q ≠ p → (k.val : Int) ≠ a →
    ∃ leg, u.get a k.val = .ok (some leg) ∧ m.LegBetween p q leg
  /-- The starts have the leg of the last one, unless their id is that of the row. -/
  start : a ≠ m.startId → ∀ q, reached.getLast? = some q →
    ∃ leg, u.get a m.startId = .ok (some leg) ∧ m.LegBetween p q leg
  /-- Everything else is as it was. -/
  rest : ∀ c d, (∀ b, b ≠ a → m.Touches p b → ¬ SamePair a b c d) → u.get c d = t.get c d

/-- **The region is visited once.** -/
theorem visitsRegion_search (hp : m.board.Holds p) : m.VisitsRegion p (m.search p) where
  mem_iff q := by
    rw [List.mem_map]
    constructor
    · rintro ⟨v, hv, rfl⟩
      obtain ⟨ds, ⟨hw, -⟩, -⟩ := found_of_mem_search hp hv
      exact ⟨ds, hw⟩
    · rintro ⟨ds, hw⟩
      exact exists_mem_search hp hw
  nodup := nodup_search hp
  apart v hv := (found_of_mem_search hp hv).apart
  sorted := sorted_search hp

theorem listsStarts_startsFrom (hp : m.board.Holds p) : m.ListsStarts p (m.startsFrom p) where
  mem_iff q := mem_startsFrom hp
  nodup := by
    have hnodup := (nodup_search hp).tail
    rw [← List.map_tail] at hnodup
    exact hnodup.filter _
  sorted := sorted_startsFrom hp

/-- **An id of the table is never refused.** -/
theorem exists_recordLegs (ha : 0 ≤ a ∧ a < m.startId + 1)
    (ht : ∀ c, t.Holds c ↔ 0 ≤ c ∧ c < m.startId + 1) (vs : List Visit) :
    ∃ u, m.recordLegs a vs t = .ok u ∧ ∀ c, u.Holds c ↔ t.Holds c := by
  induction vs generalizing t with
  | nil => exact ⟨t, rfl, fun c => Iff.rfl⟩
  | cons v vs ih =>
    obtain ⟨s, hs, hsame⟩ : ∃ s, m.recordLeg a t v = .ok s ∧ ∀ c, s.Holds c ↔ t.Holds c := by
      unfold recordLeg
      cases hv : m.landmark? v.place with
      | none => exact ⟨t, rfl, fun c => Iff.rfl⟩
      | some b =>
        by_cases hba : b = a
        · exact ⟨t, if_pos hba, fun c => Iff.rfl⟩
        · obtain ⟨s, hs⟩ := PairTable.exists_set ⟨(ht a).2 ha, (ht b).2 (landmark?_range hv)⟩
            (some ⟨v.moves, v.gates⟩)
          exact ⟨s, (if_neg hba).trans hs, PairTable.holds_of_set hs⟩
    obtain ⟨u, hu, hsame'⟩ := ih fun c => (hsame c).trans (ht c)
    exact ⟨u, bind_ok_iff.2 ⟨s, hs, hu⟩, fun c => (hsame' c).trans (hsame c)⟩

section Row

variable (hp : m.board.Holds p) (h : m.recordLegs a (m.search p).tail t = .ok u)
include hp h

/-- **A key that the survey comes to has a leg.** -/
theorem get_key_of_survey (hq : m.at? q = some (.key k)) (hj : m.Joined p q) (hqp : q ≠ p)
    (hka : (k.val : Int) ≠ a) : ∃ leg, u.get k.val a = .ok (some leg) ∧ m.LegBetween p q leg := by
  obtain ⟨ds, hw⟩ := hj
  obtain ⟨v, hv, rfl⟩ := exists_mem_search hp hw
  have hk := landmark?_of_key hq
  refine ⟨_, get_recordLegs_of_mem h ((mem_tail_search hp).2 ⟨hv, hqp⟩) hk hka fun w hw hwk => ?_,
    legBetween_of_found (found_of_mem_search hp hv)⟩
  -- the key lies at one place, which is visited once
  have hplace : w.place = v.place := landmark_unique hwk hk (by have := val_lt_startId hq; omega)
  exact List.inj_on_of_nodup_map (nodup_search hp) ((mem_tail_search hp).1 hw).1 hv hplace

/-- **The starts have the leg of the last one** that the survey comes to. -/
theorem get_start_of_survey (ha : a ≠ m.startId) (hq : (m.startsFrom p).getLast? = some q) :
    ∃ leg, u.get m.startId a = .ok (some leg) ∧ m.LegBetween p q leg := by
  have hstarts : m.startsFrom p =
      ((m.search p).tail.filter fun v => m.landmark? v.place = some (m.startId : Int)).map Visit.place := by
    rw [startsFrom, List.filter_map]
    simp only [landmark?_eq_start_iff]
    rfl
  rw [hstarts, List.getLast?_map, Option.map_eq_some_iff] at hq
  obtain ⟨v, hlast, rfl⟩ := hq
  have hv := (List.mem_filter.1 (List.mem_of_getLast? hlast)).1
  exact ⟨_, get_recordLegs_of_last h ha.symm hlast,
    legBetween_of_found (found_of_mem_search hp ((mem_tail_search hp).1 hv).1)⟩

/-- **What the survey does not come to is left alone.** -/
theorem get_of_survey_of_untouched
    (hne : ∀ b, b ≠ a → m.Touches p b → ¬ SamePair a b c d) : u.get c d = t.get c d := by
  refine get_recordLegs h fun v hv b hb hba => hne b hba ?_
  obtain ⟨hv, hvp⟩ := (mem_tail_search hp).1 hv
  obtain ⟨ds, ⟨hw, -⟩, -⟩ := found_of_mem_search hp hv
  exact ⟨v.place, hvp, ⟨ds, hw⟩, hb⟩

end Row

/-- **A survey from any place, under any id of the table**, be the place a wall and the id that of a key
which the survey comes to. Its search visits the place and each place that a walk joins to it once, nearest
first. The survey returns the other starts among them, each once, nearest first, and the table with its row
written: each key at another place has the length and the gates of a shortest walk, the starts have those of
a shortest walk to the last start, and everything else is as it was. -/
theorem surveyFrom_visits_region (hp : m.board.Holds p) (ha : 0 ≤ a ∧ a ≤ m.startId)
    (ht : t.n = m.startId + 1) : m.VisitsRegion p (m.search p) ∧ ∃ u reached,
      m.surveyFrom a p t = .ok (u, reached) ∧ m.ListsStarts p reached ∧ m.WritesRow a p reached t u := by
  have hholds : ∀ c, t.Holds c ↔ 0 ≤ c ∧ c < m.startId + 1 := fun c => by
    unfold PairTable.Holds
    omega
  have ha' : 0 ≤ a ∧ a < m.startId + 1 := by omega
  obtain ⟨u, hu, hsame⟩ := exists_recordLegs ha' hholds (m.search p).tail
  have hcomm : ∀ c : Int, 0 ≤ c ∧ c < m.startId + 1 → u.get c a = u.get a c := fun c hc =>
    PairTable.get_comm ((hsame c).2 ((hholds c).2 hc)) ((hsame a).2 ((hholds a).2 ha'))
  refine ⟨visitsRegion_search hp, u, m.startsFrom p, ?_, listsStarts_startsFrom hp, ?_⟩
  · rw [surveyFrom, hu]
    rfl
  · exact
      { key := fun q k hq hj hqp hka => by
          rw [← hcomm _ (landmark?_range (landmark?_of_key hq))]
          exact get_key_of_survey hp hu hq hj hqp hka
        start := fun ha q hq => by
          rw [← hcomm _ (by omega)]
          exact get_start_of_survey hp hu ha hq
        rest := fun c d => get_of_survey_of_untouched hp hu }

end Maze

/-- Two starts with a wall between them, and a key behind each of them. -/
def betweenStarts : Maze where
  board :=
    { rows := 1
      cols := 5
      cells := (['a', '@', '#', '@', 'b'].filterMap Cell.ofChar?).toArray
      size_cells := by decide }
  keys_nodup := by decide

/-- From the wall a survey under the id of the first key comes to the start on the right and then to the one
on the left. It writes the second key and the start on the left, and not the first key. -/
theorem surveyFrom_visits_region_betweenStarts : betweenStarts.board.Holds ⟨0, 2⟩ ∧
    betweenStarts.startId = 2 ∧ ∃ u : LegTable, betweenStarts.surveyFrom 0 ⟨0, 2⟩ (.replicate 3 none) =
        .ok (u, [⟨0, 3⟩, ⟨0, 1⟩]) ∧
      u.values = [none, some ⟨2, .empty⟩, none, some ⟨1, .empty⟩, none, none] ∧
      betweenStarts.VisitsRegion ⟨0, 2⟩ (betweenStarts.search ⟨0, 2⟩) ∧
      betweenStarts.ListsStarts ⟨0, 2⟩ [⟨0, 3⟩, ⟨0, 1⟩] ∧
      betweenStarts.WritesRow 0 ⟨0, 2⟩ [⟨0, 3⟩, ⟨0, 1⟩] (.replicate 3 none) u := by
  have hp : betweenStarts.board.Holds ⟨0, 2⟩ := by decide
  have hstart : betweenStarts.startId = 2 := by cbv
  have h : ((betweenStarts.surveyFrom 0 ⟨0, 2⟩ (.replicate 3 none)).map fun x => (x.1.values, x.2)) =
      .ok ([none, some ⟨2, .empty⟩, none, some ⟨1, .empty⟩, none, none], [⟨0, 3⟩, ⟨0, 1⟩]) := by cbv
  obtain ⟨hvisits, u, reached, hu, hlists, hrow⟩ :=
    Maze.surveyFrom_visits_region (t := .replicate 3 none) hp (a := 0) (by omega) (by rw [hstart]; rfl)
  rw [hu] at h
  obtain ⟨hvalues, rfl⟩ := Prod.mk.inj (Except.ok.inj h)
  exact ⟨hp, hstart, u, hu, hvalues, hvisits, hlists, hrow⟩

end GatedMaze
