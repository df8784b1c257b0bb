import GatedMaze.Proofs.LoopFree
import GatedMaze.Proofs.SolveNotes
import GatedMaze.Proofs.Tours

/-!
# Orders that are walked in writing

A replay that writes each step down is ended by a number with too many digits, and otherwise does what a
replay does. The numbers are the moves made so far. When no leg takes back moves the last of them is the
largest, so it is the cost of an order that decides, and what holds of accepted orders holds of those that
are accepted in writing.

* `LegTable.Forward`: no leg takes back moves; so it is in the table of a maze (`forward_of_legs`).
* `replayInWriting_eq`, `replayInWriting_ok_iff`: an order is accepted in writing when it is accepted and its
  cost can be written, and then the replay is the same, with its notes.
* `Problem.written_of_solve`: a plan can be walked in writing when its cost can be written.
* `exists_walk_of_written`, `exists_tour_of_written`: orders accepted in writing are walks and tours.
* `written_of_loopFree`: without loops every walk is in the table, in writing too.
* `written_by_quadrant`: what an order accepted in writing owes to its rounds alone.
-/

namespace GatedMaze

open Walker

variable {m : Maze} {t legs : LegTable} {start : Int} {homes : Option Homes} {h : Homes}
  {o : List Int} {walked : Int} {ps : List Pickup} {r r' : Replay} {s : Coord} {ds : List Move}

/-- No leg takes back moves. -/
def LegTable.Forward (t : LegTable) : Prop :=
  ∀ i j leg, t.get i j = .ok (some leg) → 0 ≤ leg.distance

/-- **In the table of a maze no leg takes back moves**, since a walk is as long as its leg. -/
theorem forward_of_legs (ht : m.legs = .ok t) : t.Forward := by
  intro i j leg hleg
  obtain ⟨-, p, q, -, -, es, -, hdistance, -⟩ := (Maze.legs_ok ht).1.sound i j leg hleg
  omega

section Notes

/-- Moves that are made forward can be written down on the way when they can in the end. -/
theorem isWritable_of_mem_pickupNotes (hwalked : 0 ≤ walked) (hps : ∀ p ∈ ps, 0 ≤ p.distance)
    (hsum : walked + (ps.map Pickup.distance).sum < 10 ^ Text.digitLimit) :
    ∀ n ∈ pickupNotes walked ps, n.isWritable = true := by
  induction ps generalizing walked with
  | nil => simp [pickupNotes]
  | cons p ps ih =>
    obtain ⟨hp, hps⟩ := List.forall_mem_cons.1 hps
    have hrest : 0 ≤ (ps.map Pickup.distance).sum :=
      List.sum_nonneg (by simpa using hps)
    rw [List.map_cons, List.sum_cons, ← Int.add_assoc] at hsum
    refine List.forall_mem_cons.2 ⟨?_, ih (by omega) hps hsum⟩
    have hnow : walked + p.distance < ((10 ^ Text.digitLimit : Nat) : Int) := by
      push_cast
      omega
    rw [Note.isWritable, decide_eq_true_eq, Nat.pow_eq]
    omega

/-- What was written down last are all the moves made. -/
theorem sum_lt_of_isWritable (hnotes : ∀ n ∈ pickupNotes 0 ps, n.isWritable = true) :
    (ps.map Pickup.distance).sum < 10 ^ Text.digitLimit := by
  cases hp : ps.getLast? with
  | none =>
    rw [List.getLast?_eq_none_iff.1 hp]
    positivity
  | some p =>
    have hlast := hnotes _ (List.mem_of_getLast? (getLast?_pickupNotes hp 0))
    rw [Note.isWritable, decide_eq_true_eq, Nat.pow_eq, Int.zero_add] at hlast
    have hlt : (ps.map Pickup.distance).sum < ((10 ^ Text.digitLimit : Nat) : Int) := by omega
    exact_mod_cast hlt

end Notes

/-- What is accepted in writing is accepted, and its notes can be written. -/
theorem outcome_replayInWriting_iff :
    (replayInWriting legs start o homes).outcome = .ok r ↔
      (replay legs start o homes).outcome = .ok r ∧ ∀ n ∈ pickupNotes 0 r.pickups, n.isWritable = true := by
  constructor
  · intro hr
    rw [replayInWriting, Noted.writable] at hr
    split at hr
    · next hall =>
      rw [notes_replay hr] at hall
      exact ⟨hr, List.all_eq_true.1 hall⟩
    · cases hr
  · rintro ⟨hr, hnotes⟩
    rw [replayInWriting, Noted.writable_eq (by rwa [notes_replay hr]), hr]

theorem distance_nonneg_of_fetchAll (hl : legs.Forward) {w w' : Walker}
    (hf : (fetchAll legs start homes w o).outcome = .ok (w', ps)) : ∀ p ∈ ps, 0 ≤ p.distance := by
  induction o generalizing w ps with
  | nil =>
    obtain ⟨-, rfl⟩ := Prod.mk.inj (Except.ok.inj hf)
    simp
  | cons k ks ih =>
    obtain ⟨v, pickup, rest, hk, hrest, rfl⟩ := outcome_fetchAll_cons.1 hf
    obtain ⟨-, -, quadrant, leg, -, hleg, -, -, rfl⟩ := fetch_eq_ok_iff.1 hk
    exact List.forall_mem_cons.2 ⟨hl _ _ leg hleg, ih hrest⟩

/-- **An order is accepted in writing when it is accepted and its cost can be written.** -/
theorem replayInWriting_ok_iff (hl : legs.Forward) :
    (replayInWriting legs start o homes).outcome = .ok r ↔
      (replay legs start o homes).outcome = .ok r ∧ r.cost < 10 ^ Text.digitLimit := by
  rw [outcome_replayInWriting_iff]
  refine and_congr_right fun hr => ?_
  obtain ⟨-, hcost⟩ := pickups_of_replay hr
  obtain ⟨w, ps, hf, rfl⟩ := outcome_replay_iff.1 hr
  rw [hcost]
  constructor
  · exact sum_lt_of_isWritable
  · intro hsum
    exact isWritable_of_mem_pickupNotes le_rfl (distance_nonneg_of_fetchAll hl hf) (by simpa using hsum)

/-- **A replay whose cost can be written is the same in writing**, notes and all. -/
theorem replayInWriting_eq (hl : legs.Forward) (hr : (replay legs start o homes).outcome = .ok r)
    (hcost : r.cost < 10 ^ Text.digitLimit) :
    replayInWriting legs start o homes = replay legs start o homes := by
  obtain ⟨-, hnotes⟩ := outcome_replayInWriting_iff.1 ((replayInWriting_ok_iff hl).2 ⟨hr, hcost⟩)
  exact Noted.writable_eq (by rwa [notes_replay hr])

/-- **A plan can be walked in writing** when its cost can be written. -/
theorem Problem.written_of_solve {p : Problem} {plan : Plan} (hp : p.Fits) (hl : p.legs.Forward)
    (h : ((Planner.ofProblem p).solve false).2.outcome = .ok plan)
    (hcost : plan.cost < 10 ^ Text.digitLimit) :
    ∃ r, (replayInWriting p.legs p.start plan.order plan.homes?).outcome = .ok r ∧ r.cost = plan.cost := by
  obtain ⟨r, hr, hsame⟩ := Problem.replay_of_solve hp h
  exact ⟨r, (replayInWriting_ok_iff hl).2 ⟨hr, hsame.trans_lt hcost⟩, hsame⟩

section Walks

/-- **An order that one agent walks in writing** is a real walk. -/
theorem exists_walk_of_written (ht : m.legs = .ok t) (hs : m.starts = [s])
    (hr : (replayInWriting t m.startId o none).outcome = .ok r) : ∃ ds ps,
      (ds.length : Int) = r.cost ∧ (∀ x ∈ s.trail ds, m.IsOpen x) ∧
      List.Forall₂ (fun k p => m.landmark? p = some k) o ps ∧ ps.Sublist (s.trail ds) ∧
      s.follow ds = ps.getLast?.getD s ∧
      ((m.startId : Int) ∉ o → m.Admits [s] (s.trail ds)) :=
  exists_walk_of_replay ht hs (outcome_replayInWriting_iff.1 hr).1

/-- **An order that several agents walk in writing** is a real tour. -/
theorem exists_tour_of_written {n : Int} (ht : m.legs = .ok t)
    (hh : assignQuadrants m.keyIds t n = .ok h)
    (hr : (replayInWriting t m.startId o (some h)).outcome = .ok r) :
    ∃ (xs : List Turn) (ps : List Coord), (xs.length : Int) = r.cost ∧
      (∀ x ∈ xs, x.agent ∈ m.starts) ∧ m.Admits m.starts (Turn.entered id xs) ∧
      List.Forall₂ (fun k p => m.landmark? p = some k) o ps ∧
      ps.Sublist (Turn.entered id xs) :=
  exists_tour_of_replay ht hh (outcome_replayInWriting_iff.1 hr).1

/-- **Without loops every walk is in the table, in writing too**, as long as its moves can be written. -/
theorem written_of_loopFree (hs : m.starts = [s]) (hl : m.LoopFree) (hw : m.Admits [s] (s.trail ds))
    (hlen : (ds.length : Int) < 10 ^ Text.digitLimit) : ∃ t r, m.legs = .ok t ∧
      (replayInWriting t m.startId (m.firstVisits (s :: s.trail ds)) none).outcome = .ok r ∧
      r.cost ≤ ds.length := by
  obtain ⟨t, ht⟩ := Maze.exists_legs_of_starts hs
  obtain ⟨r, hr, hle⟩ := exists_replay_firstVisits hs ht
    (Maze.unavoidable_of_loopFree (Maze.start_iff_of_starts hs) hl ht) hw
  exact ⟨t, r, ht, (replayInWriting_ok_iff (forward_of_legs ht)).2 ⟨hr, hle.trans_lt hlen⟩, hle⟩

end Walks

/-- **What an order accepted in writing owes to its rounds alone**: its cost, and up to their order the
pickups of all such orders with the same rounds. Two neighbours in different quadrants can be exchanged under
the same condition, since the exchange leaves the cost. -/
theorem written_by_quadrant (hr : (replayInWriting legs start o (some h)).outcome = .ok r) :
    (∃ d : Int → Int, (∀ x ∈ h.inUse o, legs.lengthThrough start (h.keysIn o x) = .ok (d x)) ∧
      r.cost = ∑ x ∈ h.inUse o, d x) ∧
    (∀ o' r', (replayInWriting legs start o' (some h)).outcome = .ok r' →
      (∀ x, h.keysIn o' x = h.keysIn o x) →
      r'.cost = r.cost ∧ r'.pickups.Perm r.pickups ∧ r'.collected = r.collected) ∧
    (legs.Forward → ∀ a j k b, o = a ++ j :: k :: b → h.of? j ≠ h.of? k →
      (∀ p ∈ r.pickups, p.key = k → j ∉ p.gates) →
      ∃ r', (replayInWriting legs start (a ++ k :: j :: b) (some h)).outcome = .ok r' ∧
        r'.cost = r.cost) := by
  have haccepted := (outcome_replayInWriting_iff.1 hr).1
  refine ⟨cost_of_replay haccepted, fun o' r' hr' hsame => ?_, ?_⟩
  · exact replay_of_same_rounds haccepted (outcome_replayInWriting_iff.1 hr').1 hsame
  · rintro hl a j k b rfl hjk hgate
    obtain ⟨r', hr', hcost⟩ := exists_replay_swap haccepted hjk hgate
    have hwritten : r'.cost < 10 ^ Text.digitLimit :=
      hcost.trans_lt ((replayInWriting_ok_iff hl).1 hr).2
    exact ⟨r', (replayInWriting_ok_iff hl).2 ⟨hr', hwritten⟩, hcost⟩

end GatedMaze
