import GatedMaze.Proofs.Drawings
import GatedMaze.Proofs.Ranks
import GatedMaze.Proofs.Solves

/-!
# What a solve reports

A solve ends with a plan or reports a condition of the maze: a defect, keys that are left over, or that
no order collects all keys. Ids and quadrants stay within the bounds of the sets and tables they are used
with, so no other fault comes up, whatever the text is and however many quadrants are asked for. The
list of the sizes of all quadrants is a mathematical one here: how much room it takes is left out. So is
the number of digits to which a number can be written out in a note or in the words of a fault.

* `reported_of_ofText`, `defect_of_prepare`, `defect_of_legs`, `unassigned_of_crew`, `crew_spec`: what each
  stage reports.
* `Maze.solve_reports`: what the solve of a maze reports.
* `solveText_reports`: what the solve of a text reports, and that the walk along its plan never fails.
-/

namespace GatedMaze

variable {m : Maze} {t : LegTable} {cfg : Config} {e : Fault} {text : String}

/-- The conditions that a solve reports. -/
inductive Reported : Fault → Prop
  | defect (d : Defect) (row col : Option Int) : Reported (.maze (.defect d row col))
  | unassigned (keys : List Int) (quadrants : Int) : Reported (.maze (.unassigned keys quadrants))
  | noOrder (keys : Nat) : Reported (.impasse (.noOrder keys))

theorem reported_of_ofText (h : Maze.ofText text = .error e) : Reported e := by
  rw [Maze.ofText] at h
  cases Maze.defective_of_error h with
  | _ => exact .defect ..

/-- What a split refuses is a defect of the maze. -/
theorem defect_of_split (h : m.split = .error e) : ∃ d row col, e = .maze (.defect d row col) := by
  unfold Maze.split at h
  split at h
  · split at h
    · exact ⟨_, _, _, (Except.error.inj h).symm⟩
    · cases h
  · exact ⟨_, _, _, (Except.error.inj h).symm⟩

theorem defect_of_prepare (hagents : cfg.agents = 1 ∨ cfg.agents = 4)
    (h : cfg.prepare m = .error e) : ∃ d row col, e = .maze (.defect d row col) := by
  rw [Config.prepare_eq_started hagents] at h
  rcases bind_error_iff.1 h with h | ⟨m', -, h⟩
  · split at h
    · exact defect_of_split h
    · cases h
  · unfold Config.started at h
    split at h
    · exact ⟨_, _, _, (Except.error.inj h).symm⟩
    · cases h

theorem defect_of_legs (h : m.legs = .error e) : ∃ d row col, e = .maze (.defect d row col) := by
  rcases m.legs_spec with ⟨t, ht, -⟩ | ⟨before, p, after, q, -, -, -, he⟩
  · rw [ht] at h
    cases h
  · exact ⟨_, _, _, Except.error.inj (h.symm.trans he)⟩

/-- Keys are left over when there is no agent for each of them. -/
theorem unassigned_of_crew (ht : m.legs = .ok t) (h : (cfg.crew m.keyIds t).outcome = .error e) :
    ∃ keys, e = .maze (.unassigned keys cfg.quadrants) := by
  by_cases hone : cfg.agents = 1
  · rw [outcome_crew_one hone] at h
    cases h
  · obtain ⟨homes, -, hq⟩ := Maze.assignQuadrants_eq ht cfg.quadrants
    have he : assignQuadrants m.keyIds t cfg.quadrants = .error e := by
      cases hres : assignQuadrants m.keyIds t cfg.quadrants with
      | ok homes =>
        rw [outcome_crew_many hone hres] at h
        cases h
      | error e' =>
        unfold Config.crew notedQuadrants at h
        rw [if_neg hone, hres] at h
        exact congrArg _ (Except.error.inj h)
    rw [he] at hq
    split at hq
    · cases hq
    · exact ⟨_, Except.error.inj hq⟩

/-- **The crew of a maze has an agent for each key**, or keys are left over. -/
theorem crew_spec (ht : m.legs = .ok t) (cfg : Config) :
    (∃ crew, (cfg.crew m.keyIds t).outcome = .ok crew ∧ crew.Serves m.keyIds) ∨
      ∃ e, (cfg.crew m.keyIds t).outcome = .error e ∧ Reported e := by
  by_cases hone : cfg.agents = 1
  · exact .inl ⟨.one, outcome_crew_one hone _, trivial⟩
  · cases hq : assignQuadrants m.keyIds t cfg.quadrants with
    | ok homes => exact .inl ⟨_, outcome_crew_many hone hq, serves_of_assignQuadrants hq⟩
    | error e =>
      have hout : (cfg.crew m.keyIds t).outcome = .error e := by
        unfold Config.crew notedQuadrants
        rw [if_neg hone, hq]
        rfl
      obtain ⟨keys, rfl⟩ := unassigned_of_crew ht hout
      exact .inr ⟨_, hout, .unassigned ..⟩

/-- **What the solve of a maze reports.** -/
theorem Maze.solve_reports (hagents : cfg.agents = 1 ∨ cfg.agents = 4) (m : Maze) :
    (∃ plan, (m.solve cfg).outcome = .ok plan) ∨ ∃ e, (m.solve cfg).outcome = .error e ∧ Reported e := by
  cases hprep : cfg.prepare m with
  | error e =>
    obtain ⟨d, row, col, rfl⟩ := defect_of_prepare hagents hprep
    exact .inr ⟨_, outcome_solve_of_refused hprep, .defect d row col⟩
  | ok m' =>
    cases ht : m'.legs with
    | error e =>
      obtain ⟨d, row, col, rfl⟩ := defect_of_legs ht
      refine .inr ⟨_, ?_, .defect d row col⟩
      rw [outcome_solve_of_prepare hprep, Noted.outcome_bind_of_error ((outcome_notedLegs m').trans ht)]
    | ok t =>
      rcases crew_spec ht cfg with ⟨crew, hcrew, hs⟩ | ⟨e, hcrew, he⟩
      · rw [outcome_solve hprep ht hcrew hs]
        have hp : (Problem.ofKeys t m'.keyIds m'.startId crew cfg.progress).Fits :=
          fits_of_legs ht hs
        have hspec := Problem.solve_spec hp false
        revert hspec
        cases ((Planner.ofProblem
          (.ofKeys t m'.keyIds m'.startId crew cfg.progress)).solve false).2.outcome with
        | ok plan => exact fun _ => .inl ⟨plan, rfl⟩
        | error e =>
          intro hspec
          cases hspec
          exact .inr ⟨_, rfl, .noOrder _⟩
      · refine .inr ⟨e, ?_, he⟩
        rw [outcome_solve_of_prepare hprep,
          Noted.outcome_bind_of_ok ((outcome_notedLegs m').trans ht),
          Noted.outcome_bind_of_error hcrew]

/-- Every note is shown under the tag of its stage. -/
theorem exists_announce (shown : Bool) (s : Stage) (message : String) :
    ∃ line, announce shown s.name message = .ok line := by
  have hname : Stage.ofName? s.name = some s := by cases s <;> rfl
  unfold announce
  rw [hname]
  exact ⟨_, rfl⟩

/-- **A solve ends with a plan or with a condition of the maze**, for one agent and for four, whatever
the text and the number of quadrants are. The walk along the plan makes the moves that the plan states,
and every note can be shown. -/
theorem solveText_reports (hagents : cfg.agents = 1 ∨ cfg.agents = 4) (text : String) :
    ((∃ plan, (solveText text cfg).outcome = .ok plan) ∨
      ∃ e, (solveText text cfg).outcome = .error e ∧ Reported e) ∧
    (∀ m m' t crew plan, Maze.ofText text = .ok m → cfg.prepare m = .ok m' → m'.legs = .ok t →
      (cfg.crew m'.keyIds t).outcome = .ok crew →
      ((Planner.ofProblem
        (.ofKeys t m'.keyIds m'.startId crew cfg.progress)).solve false).2.outcome = .ok plan →
      ∃ r, (replay t m'.startId plan.order plan.homes?).outcome = .ok r ∧ r.cost = plan.cost) ∧
    ∀ note ∈ (solveText text cfg).notes, ∀ s, note.stage? = some s →
      ∀ shown, ∃ line, announce shown s.name note.message = .ok line := by
  refine ⟨?_, ?_, fun note _ s _ shown => exists_announce shown s note.message⟩
  · unfold solveText
    cases h : Maze.ofText text with
    | error e => exact .inr ⟨e, rfl, reported_of_ofText h⟩
    | ok m =>
      rw [Noted.outcome_bind_of_ok (Noted.outcome_ofExcept _)]
      exact m.solve_reports hagents
  · intro m m' t crew plan _ _ ht hcrew hplan
    rcases crew_spec ht cfg with ⟨crew', hcrew', hs⟩ | ⟨e, hcrew', -⟩
    · rw [hcrew] at hcrew'
      obtain rfl := Except.ok.inj hcrew'
      exact Problem.replay_of_solve (fits_of_legs ht hs) hplan
    · rw [hcrew] at hcrew'
      cases hcrew'

theorem solveText_reports_twoRooms :
    (∃ e, (solveText "a.@" { agents := 4, quadrants := -1 }).outcome = .error e ∧ Reported e) ∧
    ∃ m t homes plan r, Maze.ofText "@.a#Ab@" = .ok m ∧ m.legs = .ok t ∧
      ((Planner.ofProblem (.ofKeys t m.keyIds m.startId
        (.perQuadrant homes 4) true)).solve false).2.outcome = .ok plan ∧
      (replay t m.startId plan.order plan.homes?).outcome = .ok r ∧ r.cost = plan.cost ∧
      plan.cost = 3 := by
  have hnone : (solveText "a.@" { agents := 4, quadrants := -1 }).outcome =
      .error (.maze (.unassigned [0] (-1))) := by cbv
  have h : (do
      let m ← Maze.ofText "@.a#Ab@"
      let t ← m.legs
      let homes ← assignQuadrants m.keyIds t 4
      let plan ← ((Planner.ofProblem (.ofKeys t m.keyIds m.startId
        (.perQuadrant homes 4) true)).solve false).2.outcome
      pure plan.cost) = .ok 3 := by cbv
  simp only [bind_ok_iff, pure_eq_ok, Except.ok.injEq] at h
  obtain ⟨m, hm, t, ht, homes, hh, plan, hplan, hthree⟩ := h
  have hcrew : (({ agents := 4 } : Config).crew m.keyIds t).outcome = .ok (.perQuadrant homes 4) :=
    outcome_crew_many (by decide) hh
  obtain ⟨hend, -⟩ := solveText_reports
    (.inr rfl : ({ agents := 4, quadrants := -1 } : Config).agents = 1 ∨ (4 : Int) = 4) "a.@"
  obtain ⟨-, hwalk, -⟩ := solveText_reports
    (.inr rfl : ({ agents := 4 } : Config).agents = 1 ∨ (4 : Int) = 4) "@.a#Ab@"
  obtain ⟨r, hr, hcost⟩ := hwalk m m t _ plan hm rfl ht hcrew hplan
  refine ⟨hend.resolve_left ?_, m, t, homes, plan, r, hm, ht, hplan, hr, hcost, hthree⟩
  rintro ⟨plan, hp⟩
  rw [hnone] at hp
  cases hp

end GatedMaze
