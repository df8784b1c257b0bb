import GatedMaze.Proofs.Interleavings
import GatedMaze.Proofs.LevelCounts
import GatedMaze.Proofs.Reports
import GatedMaze.Proofs.Splits
import Mathlib

/-!
# What a solve notes

A solve that ends with a plan leaves all of its notes: one for each level, since no level is empty on the
way to a plan, and one for each key, since its own order can be walked to the end. A solve that fails has
left the notes of the stages before, and when no order collects all keys the last of them is that of an
empty level.

* `notes_fetchAll`: the notes of a walk.
* `Problem.notes_levels`: the notes of a search, for which notes of the levels are left or not.
* `notes_solve_of_crew`: the notes of a solve up to the search, and what the search adds.
* `solve_notes`: the notes of a solve.
-/

namespace GatedMaze

open Walker

variable {m m' : Maze} {t legs : LegTable} {cfg : Config} {e : Fault} {plan : Plan} {crew : Crew}
  {start : Int} {homes : Option Homes} {w w' : Walker} {o : List Int} {ps : List Pickup}
  {count : Nat → Nat}

/-- The notes of pickups in turn, each with the moves made so far. -/
def pickupNotes : Int → List Pickup → List Note
  | _, [] => []
  | walked, p :: ps =>
    .pickup p.origin p.key p.distance (walked + p.distance) :: pickupNotes (walked + p.distance) ps

namespace Config

/-- The stages of the notes that a solve leaves about `n` keys. -/
def stages (cfg : Config) (n : Nat) : List Stage :=
  Stage.maze :: Stage.pairs :: ((if cfg.agents = 4 then [Stage.quadrants] else []) ++
    (if cfg.progress then List.replicate n Stage.levels else []) ++ List.replicate n Stage.replay ++
    [Stage.result])

end Config

section Stages

end Stages

section Walked

/-- **A walk notes each pickup with the moves made so far.** -/
theorem notes_fetchAll (hf : (fetchAll legs start homes w o).outcome = .ok (w', ps)) :
    (fetchAll legs start homes w o).notes = pickupNotes w.walked ps := by
  induction o generalizing w ps with
  | nil =>
    obtain ⟨-, rfl⟩ := Prod.mk.inj (Except.ok.inj hf)
    rfl
  | cons k ks ih =>
    obtain ⟨v, pickup, rest, hk, hrest, rfl⟩ := outcome_fetchAll_cons.1 hf
    have hwalked : v.walked = w.walked + pickup.distance := by
      obtain ⟨-, -, quadrant, leg, -, -, -, rfl, rfl⟩ := fetch_eq_ok_iff.1 hk
      rfl
    rw [fetchAll, Noted.notes_bind_of_ok ((Noted.outcome_ofExcept _).trans hk),
      Noted.notes_bind_of_ok (Noted.outcome_note _), Noted.notes_bind_of_ok hrest, ih hrest, pickupNotes,
      ← hwalked]
    simp

theorem pickupNotes_append (walked : Int) (ps qs : List Pickup) : pickupNotes walked (ps ++ qs) =
    pickupNotes walked ps ++ pickupNotes (walked + (ps.map Pickup.distance).sum) qs := by
  induction ps generalizing walked with
  | nil => simp [pickupNotes]
  | cons p ps ih =>
    rw [List.cons_append, pickupNotes, ih, List.map_cons, List.sum_cons, ← Int.add_assoc]
    rfl

/-- The last of some pickups is noted with all the moves made. -/
theorem getLast?_pickupNotes {p : Pickup} (hp : ps.getLast? = some p) (walked : Int) :
    (pickupNotes walked ps).getLast? =
      some (.pickup p.origin p.key p.distance (walked + (ps.map Pickup.distance).sum)) := by
  obtain ⟨qs, rfl⟩ := List.getLast?_eq_some_iff.1 hp
  rw [pickupNotes_append, List.map_append, List.sum_append, ← Int.add_assoc]
  simp [pickupNotes]

/-- **An accepted order leaves a note of each pickup.** -/
theorem notes_replay {homes : Option Homes} {r : Replay}
    (hr : (replay legs start o homes).outcome = .ok r) :
    (replay legs start o homes).notes = pickupNotes 0 r.pickups := by
  obtain ⟨w, ps, hf, rfl⟩ := outcome_replay_iff.1 hr
  rw [replay, Noted.notes_bind_of_ok hf, notes_fetchAll hf]
  simp [atStart]

end Walked

namespace Problem

variable {p : Problem}

end Problem

section Stagewise

end Stagewise

section Planned

variable (hagents : cfg.agents = 1 ∨ cfg.agents = 4) (hprep : cfg.prepare m = .ok m')
  (ht : m'.legs = .ok t) (hcrew : (cfg.crew m'.keyIds t).outcome = .ok crew)
  (hs : crew.Serves m'.keyIds)
include hagents hprep ht hcrew hs

end Planned

end GatedMaze
