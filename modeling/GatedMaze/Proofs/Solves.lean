import GatedMaze.Proofs.Legs
import GatedMaze.Proofs.OneAgent
import GatedMaze.Proofs.Regions
import GatedMaze.Solve

/-!
# From a maze to a plan

* `fits_of_legs`: what a planner is asked about a maze fits the maze's table.
* `Problem.replay_of_solve`: a plan can be walked, and costs what it states.
* `Config.prepare_eq_started`, `outcome_solve_of_refused`: how a maze is prepared, and when it is refused.
* `outcome_solve`: once a maze is prepared, the outcome is that of the planner.
* `outcome_solve_one`: the same for one agent.
-/

namespace GatedMaze

open Walker

variable {m : Maze} {t : LegTable} {cfg : Config}

/-- The table of a maze holds its start. -/
theorem holds_startId (ht : m.legs = .ok t) : t.Holds m.startId :=
  ((Maze.legs_ok ht).1.holds (m.startId : Int)).2 (by omega)

/-- The table of a maze holds its keys, and so does a set. -/
theorem holds_of_mem_keyIds (ht : m.legs = .ok t) : ∀ k ∈ m.keyIds, t.Holds k ∧ k < IdSet.capacity := by
  intro k hk
  obtain ⟨hnonneg, hlt, hcapacity⟩ := Maze.keyIds_lt_startId hk
  exact ⟨((Maze.legs_ok ht).1.holds k).2 (by omega), hcapacity⟩

/-- The problem of a maze fits its table. -/
theorem fits_of_legs {crew : Crew} {progress : Bool} (ht : m.legs = .ok t)
    (hs : crew.Serves m.keyIds) : (Problem.ofKeys t m.keyIds m.startId crew progress).Fits :=
  fits_ofKeys (holds_startId ht) (holds_of_mem_keyIds ht) hs progress

/-- An agent for each quadrant serves all keys. -/
theorem serves_of_assignQuadrants {keys : List Int} {homes : Homes} {n : Int}
    (hh : assignQuadrants keys t n = .ok homes) : (Crew.perQuadrant homes n).Serves keys :=
  fun _ hk => assignQuadrants_spec hh hk

/-- The quadrants that a plan is walked with. -/
def Plan.homes? (plan : Plan) : Option Homes :=
  if plan.homes.entries.isEmpty then none else some plan.homes

/-- **A plan can be walked**, and costs what it states. -/
theorem Problem.replay_of_solve {p : Problem} {plan : Plan} (hp : p.Fits)
    (h : ((Planner.ofProblem p).solve false).2.outcome = .ok plan) :
    ∃ r, (replay p.legs p.start plan.order plan.homes?).outcome = .ok r ∧ r.cost = plan.cost := by
  have hspec := Problem.solve_spec hp false
  rw [h] at hspec
  cases hspec with
  | plan plan w ordering kept along cost homes least =>
    refine replay_ok_iff.2 ⟨w, ?_, cost.symm⟩
    have hserves := hp.crew
    rw [Problem.along] at along
    rw [Plan.homes?, homes]
    cases hcrew : p.crew with
    | one =>
      rw [hcrew] at along
      exact along
    | perQuadrant h n =>
      rw [hcrew] at along hserves
      by_cases hempty : h.entries = []
      · -- without quadrants there are no keys, and nothing is walked
        have hnil : plan.order = [] := by
          refine List.eq_nil_iff_forall_not_mem.2 fun k hk => ?_
          obtain ⟨x, hx, -⟩ := hserves k ((ordering.2 k).1 hk)
          rw [Homes.of?, hempty] at hx
          cases hx
        rw [hnil] at along ⊢
        exact along
      · have hne : h.entries.isEmpty = false := by simpa using hempty
        rw [Crew.homes, hne]
        exact along
    | crowd h reason =>
      rw [hcrew] at hserves
      exact hserves.elim

/-- Walking a plan raises no objection. -/
theorem outcome_check {p : Problem} {plan : Plan} (hp : p.Fits)
    (h : ((Planner.ofProblem p).solve false).2.outcome = .ok plan) :
    (plan.check p.legs p.start).outcome = .ok () := by
  obtain ⟨r, hr, hcost⟩ := Problem.replay_of_solve hp h
  have hr : (replay p.legs p.start plan.order
      (if plan.homes.entries.isEmpty then none else some plan.homes)).outcome = .ok r := hr
  unfold Plan.check
  rw [Noted.outcome_bind_of_ok hr, if_neg (not_not.2 hcost)]
  rfl

theorem outcome_notedLegs (m : Maze) : m.notedLegs.outcome = m.legs := by
  unfold Maze.notedLegs
  rw [Noted.outcome_bind, Noted.outcome_ofExcept]
  cases m.legs with
  | error e => rfl
  | ok t =>
    show Noted.outcome _ = _
    rw [Noted.outcome_bind_of_ok (Noted.outcome_note _)]
    rfl

/-- The maze that was prepared is the one that is solved. -/
theorem outcome_solve_of_prepare {m' : Maze} (hprep : cfg.prepare m = .ok m') :
    (m.solve cfg).outcome = (do
      let legs ← m'.notedLegs
      let crew ← cfg.crew m'.keyIds legs
      let problem := Problem.ofKeys legs m'.keyIds m'.startId crew cfg.progress
      let plan ← ((Planner.ofProblem problem).solve false).2
      plan.check legs m'.startId
      Noted.note (.result plan.cost plan.order)
      pure plan : Noted Note Plan).outcome := by
  unfold Maze.solve
  rw [Noted.outcome_bind_of_ok ((Noted.outcome_ofExcept _).trans hprep),
    Noted.outcome_bind_of_ok (Noted.outcome_note _),
    Noted.outcome_bind_of_ok (Noted.outcome_notesOf _)]

/-- **Once a maze is prepared, the outcome is that of the planner.** -/
theorem outcome_solve {m' : Maze} {crew : Crew} (hprep : cfg.prepare m = .ok m') (ht : m'.legs = .ok t)
    (hcrew : (cfg.crew m'.keyIds t).outcome = .ok crew) (hs : crew.Serves m'.keyIds) :
    (m.solve cfg).outcome = ((Planner.ofProblem
      (.ofKeys t m'.keyIds m'.startId crew cfg.progress)).solve false).2.outcome := by
  have hp : (Problem.ofKeys t m'.keyIds m'.startId crew cfg.progress).Fits := fits_of_legs ht hs
  rw [outcome_solve_of_prepare hprep, Noted.outcome_bind_of_ok ((outcome_notedLegs m').trans ht),
    Noted.outcome_bind_of_ok hcrew]
  cases h : ((Planner.ofProblem
      (.ofKeys t m'.keyIds m'.startId crew cfg.progress)).solve false).2.outcome with
  | error e => rw [Noted.outcome_bind_of_error h]
  | ok plan =>
    have hcheck : (plan.check t m'.startId).outcome = .ok () := outcome_check hp h
    rw [Noted.outcome_bind_of_ok h, Noted.outcome_bind_of_ok hcheck,
      Noted.outcome_bind_of_ok (Noted.outcome_note _)]
    rfl

/-- A maze that has the starts the agents need. -/
def Config.started (cfg : Config) (m : Maze) : Except Fault Maze :=
  if cfg.agents = 1 ∧ m.starts.length ≠ 1 then .error (.defectOf (.loneStart m.starts.length))
  else .ok m

/-- Preparing is splitting, if asked to, and looking for the starts. -/
theorem Config.prepare_eq_started (hagents : cfg.agents = 1 ∨ cfg.agents = 4) (m : Maze) :
    cfg.prepare m = (if cfg.split then m.split else .ok m) >>= cfg.started := by
  have hnot : ¬ (cfg.agents ≠ 1 ∧ cfg.agents ≠ 4) := by omega
  have hstart : ∀ n : Maze, (do
      if cfg.agents = 1 ∧ n.starts.length ≠ 1 then throw (.defectOf (.loneStart n.starts.length))
      pure n) = cfg.started n := by
    intro n
    unfold Config.started
    split <;> rfl
  unfold Config.prepare
  rw [if_neg hnot]
  simp only [hstart]
  cases cfg.split <;> rfl

/-- A maze that cannot be prepared is refused. -/
theorem outcome_solve_of_refused {e : Fault} (hprep : cfg.prepare m = .error e) :
    (m.solve cfg).outcome = .error e := by
  unfold Maze.solve
  rw [Noted.outcome_bind_of_error ((Noted.outcome_ofExcept _).trans hprep)]

/-- A maze that is not split and has a start for one agent is solved as it is. -/
theorem prepare_eq (hagents : cfg.agents = 1 ∨ cfg.agents = 4) (hsplit : cfg.split = false)
    (hs : m.starts.length = 1) : cfg.prepare m = .ok m := by
  unfold Config.prepare
  rcases hagents with h | h <;> simp [h, hsplit, hs, bind, Except.bind]

theorem outcome_crew_one (hone : cfg.agents = 1) (keyIds : List Int) :
    (cfg.crew keyIds t).outcome = .ok .one := by
  unfold Config.crew
  rw [if_pos hone]
  rfl

theorem outcome_crew_many {keyIds : List Int} {homes : Homes} (hmany : cfg.agents ≠ 1)
    (hh : assignQuadrants keyIds t cfg.quadrants = .ok homes) :
    (cfg.crew keyIds t).outcome = .ok (.perQuadrant homes cfg.quadrants) := by
  unfold Config.crew notedQuadrants
  rw [if_neg hmany, hh]
  rfl

/-- **For one agent the outcome is that of the planner.** -/
theorem outcome_solve_one (hone : cfg.agents = 1) (hsplit : cfg.split = false)
    (hs : m.starts.length = 1) (ht : m.legs = .ok t) : (m.solve cfg).outcome =
      ((Planner.ofProblem
        (.ofKeys t m.keyIds m.startId .one cfg.progress)).solve false).2.outcome :=
  outcome_solve (prepare_eq (.inl hone) hsplit hs) ht (outcome_crew_one hone _) trivial

end GatedMaze
