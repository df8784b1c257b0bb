import GatedMaze.Proofs.Collecting
import GatedMaze.Proofs.Copies
import GatedMaze.Proofs.Splits

/-!
# Opening gates

When all gates of a letter are taken away, the maze that is left is a copy in which this letter is on no
walk. Its legs are as long as before, so every order that was accepted still is, and a single agent never
needs more moves.

* `copy_opened`: the maze without the gates of a letter is a copy.
* `along_reread`: with fewer gates on the legs the same orders are accepted.
* `opened_legs_and_cost`: the legs of the maze without the gates, and what a single agent needs there.
-/

namespace GatedMaze

open Walker

/-- **With fewer gates on the legs** the orders that were accepted still are, and take the same moves. -/
theorem along_reread {legs : LegTable} {start : Int} {homes : Option Homes} {r : IdSet → IdSet}
    {o : List Int} {w : Walker} (hr : ∀ s : IdSet, (r s).subset s = true)
    (h : along legs start homes o = .ok w) : along (legs.reread r) start homes o = .ok w := by
  induction o using List.reverseRecOn generalizing w with
  | nil => exact h
  | append_singleton q k ih =>
    obtain ⟨v, hv, hk⟩ := along_append_ok.1 h
    obtain ⟨hnew, hrange, quadrant, leg, hquad, hleg, hopen, rfl⟩ := next_eq_ok_iff.1 hk
    have hleg' : (legs.reread r).get (v.originIn start quadrant) k =
        .ok (some { leg with gates := r leg.gates }) := by
      rw [LegTable.reread, PairTable.get_map, hleg]
      rfl
    have hopen' : (r leg.gates).subset v.held = true := by
      refine IdSet.subset_iff.2 fun i hi => ?_
      exact IdSet.subset_iff.1 hopen i (IdSet.subset_iff.1 (hr leg.gates) i hi)
    exact along_append_ok.2
      ⟨v, ih hv, next_eq_ok_iff.2 ⟨hnew, hrange, quadrant, _, hquad, hleg', hopen', rfl⟩⟩

namespace Maze

variable {m : Maze} {g : Letter} {p : Coord} {cfg : Config} {plan : Plan}

/-- A cell where the gates of a letter are open floor. -/
def openCell (g : Letter) (c : Cell) : Cell := if c = .gate g then .floor else c

/-- The maze with open floor in place of the gates of a letter. -/
def opened (m : Maze) (g : Letter) : Maze where
  board := m.board.mapPlaces fun _ c => openCell g c
  keys_nodup := by
    refine nodup_keys_mapPlaces (fun p c _ => ?_) m.keys_nodup
    unfold openCell
    split
    · next hc => rw [hc]; rfl
    · rfl

theorem at?_opened (m : Maze) (g : Letter) (p : Coord) :
    (m.opened g).at? p = (m.at? p).map (openCell g) := Board.get?_mapPlaces

/-- Only the gates of the letter change. -/
theorem at?_opened_iff {c : Cell} (hfloor : c ≠ .floor) (hgate : c ≠ .gate g) :
    (m.opened g).at? p = some c ↔ m.at? p = some c := by
  rw [at?_opened, Option.map_eq_some_iff]
  unfold openCell
  constructor
  · rintro ⟨d, hd, hc⟩
    split at hc
    · exact absurd hc.symm hfloor
    · rw [hd, hc]
  · intro hc
    exact ⟨c, hc, if_neg hgate⟩

theorem isOpen_opened : (m.opened g).IsOpen p ↔ m.IsOpen p := by
  have hwall : ∀ c, openCell g c ≠ .wall ↔ c ≠ .wall := by
    intro c
    unfold openCell
    split
    · next hc => simp [hc]
    · rfl
  unfold IsOpen
  rw [at?_opened]
  constructor
  · rintro ⟨c, hc, hne⟩
    obtain ⟨d, hd, rfl⟩ := Option.map_eq_some_iff.1 hc
    exact ⟨d, hd, (hwall d).1 hne⟩
  · rintro ⟨d, hd, hne⟩
    exact ⟨openCell g d, by rw [hd, Option.map_some], (hwall d).2 hne⟩

/-- The gates of the letter are not entered any more, all others are entered as before. -/
theorem entering_opened (m : Maze) (g : Letter) (p : Coord) (s : IdSet) :
    (m.opened g).entering p (s.drop g) = (m.entering p s).drop g := by
  unfold entering
  rw [at?_opened]
  cases m.at? p with
  | none => rfl
  | some c =>
    cases c with
    | gate g' =>
      by_cases hg : g' = g
      · subst hg
        have hfloor : openCell g' (.gate g') = .floor := if_pos rfl
        simp only [Option.map_some, hfloor]
        exact (s.drop_add_self g').symm
      · have hgate : openCell g (.gate g') = .gate g' := if_neg fun h => hg (Cell.gate.inj h)
        simp only [Option.map_some, hgate]
        exact (IdSet.drop_add_of_ne (fun h => hg (Fin.ext h.symm)) s).symm
    | _ => rfl

/-- **The maze without the gates of a letter is a copy** in which this letter is on no walk. -/
theorem copy_opened (m : Maze) (g : Letter) :
    m.Copy (m.opened g) 0 0 fun s => s.drop g where
  isOpen := fun p => by rw [Coord.shift_zero]; exact isOpen_opened
  key := fun p k => by rw [Coord.shift_zero]; exact at?_opened_iff (by simp) (by simp)
  start := fun p => by rw [Coord.shift_zero]; exact at?_opened_iff (by simp) (by simp)
  entering := fun p s => by rw [Coord.shift_zero]; exact m.entering_opened g p s
  empty := by
    apply IdSet.ext_testBit
    intro i
    rw [IdSet.testBit_drop]
    simp [IdSet.empty]

/-- A single agent cannot be sent through a maze that is split, which has four starts. -/
theorem not_solved_split (hone : cfg.agents = 1) (hsplit : cfg.split = true) :
    (m.solve cfg).outcome ≠ .ok plan := by
  obtain ⟨e, he⟩ : ∃ e, cfg.prepare m = .error e := by
    rw [Config.prepare_eq_started (.inl hone), hsplit, if_pos rfl]
    cases hm : m.split with
    | error e => exact ⟨e, rfl⟩
    | ok m' =>
      obtain ⟨s, hcut⟩ := cut_of_split hm
      have hfour : m'.starts.length ≠ 1 := by
        rw [hcut.starts]
        simp [corners]
      exact ⟨_, if_pos ⟨hone, hfour⟩⟩
  rw [outcome_solve_of_refused he]
  intro hout
  cases hout

/-- **Opening gates never hurts a single agent.** When the gates of a letter are taken out of a maze with
one start, the legs stay as long as they are and lose this letter from their gates; and if an agent can
collect all keys of the maze, it still can, with no more moves. -/
theorem opened_legs_and_cost (hs : m.starts.length = 1) (g : Letter) :
    ∃ t, m.legs = .ok t ∧ (m.opened g).legs = .ok (t.reread fun gates => gates.drop g) ∧
      ∀ cfg : Config, cfg.agents = 1 → ∀ plan, (m.solve cfg).outcome = .ok plan →
        ∃ plan', ((m.opened g).solve cfg).outcome = .ok plan' ∧ plan'.cost ≤ plan.cost := by
  have hcopy := m.copy_opened g
  obtain ⟨s, hlone⟩ := List.length_eq_one_iff.1 hs
  obtain ⟨t, ht⟩ : ∃ t, m.legs = .ok t := by
    refine exists_legs fun p q hp hq => ?_
    rw [← mem_starts, hlone, List.mem_singleton] at hp hq
    rw [hp, hq]
  have ht' : (m.opened g).legs = .ok (t.reread fun gates => gates.drop g) := by
    rw [hcopy.legs, ht, outcomeMap_ok]
  refine ⟨t, ht, ht', fun cfg hone plan hplan => ?_⟩
  cases hsplit : cfg.split with
  | true => exact absurd hplan (not_solved_split hone hsplit)
  | false =>
    have hs' : (m.opened g).starts.length = 1 := by
      rw [hcopy.starts, List.length_map, hs]
    obtain ⟨c, hc, hle⟩ := (solve_one_le_iff hone hsplit hs ht plan.cost).1 ⟨plan, hplan, le_rfl⟩
    refine (solve_one_le_iff hone hsplit hs' ht' plan.cost).2 ⟨c, ?_, hle⟩
    -- the order that collects the keys is still accepted
    obtain ⟨o, w, ho, hw, hcost⟩ := mem_totals.1 hc
    have hw' := along_reread (fun gates => gates.drop_subset g) hw
    rw [hcopy.keyIds, hcopy.startId]
    exact mem_totals.2 ⟨o, w, ho, hw', hcost⟩

theorem opened_legs_and_cost_corridor : ∃ m plan plan', ofText "b.A.@.....a" = .ok m ∧
    (m.solve {}).outcome = .ok plan ∧ plan.cost = 16 ∧
    ((m.opened 0).solve {}).outcome = .ok plan' ∧ plan'.cost ≤ plan.cost ∧ plan'.cost = 14 := by
  have h : (do
      let m ← ofText "b.A.@.....a"
      let plan ← (m.solve {}).outcome
      let plan' ← ((m.opened 0).solve {}).outcome
      pure (m.starts.length, plan.cost, plan'.cost)) = .ok (1, 16, 14) := by cbv
  simp only [bind_ok_iff, pure_eq_ok, Except.ok.injEq, Prod.mk.injEq] at h
  obtain ⟨m, hm, plan, hplan, plan', hplan', hs, hcost, hcost'⟩ := h
  obtain ⟨t, -, -, hsolve⟩ := opened_legs_and_cost hs 0
  obtain ⟨plan₁, hplan₁, hle⟩ := hsolve {} rfl plan hplan
  obtain rfl := Except.ok.inj (hplan'.symm.trans hplan₁)
  exact ⟨m, plan, plan', hm, hplan, hcost, hplan', hle, hcost'⟩

end Maze

end GatedMaze
