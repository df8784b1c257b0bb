import GatedMaze.Proofs.Boards
import GatedMaze.Proofs.Legs
import GatedMaze.Proofs.OwnTables

/-!
# A maze inside another one

A copy of a maze lies in another maze some rows further down and some columns further to the right. The
same places are open in both, the same keys and starts lie on them, and a gate that is entered in one is
read in the other. Searches go through both in step, so both have the same legs.

* `Copy.keys`, `Copy.starts`, `Copy.landmark?`: the landmarks of a copy.
* `MarkedAlike.fresh`, `Copy.serve`, `Copy.search`: a search of a copy makes the same visits in the same
  order.
* `Copy.recordLegs`, `Copy.surveyFrom`, `Copy.legs`: the legs of a copy, or what is reported instead.
-/

namespace GatedMaze

namespace Coord

variable {p q : Coord} {dr dc : Int}

@[simp] theorem shift_zero (p : Coord) : p.shift 0 0 = p := by
  simp [shift]

theorem step_shift (p : Coord) (d : Move) : (p.shift dr dc).step d = (p.step d).shift dr dc := by
  cases d <;> simp only [step, shift, Coord.mk.injEq, true_and, and_true] <;> omega

theorem shift_inj : p.shift dr dc = q.shift dr dc ↔ p = q := by
  obtain ⟨r, c⟩ := p
  obtain ⟨r', c'⟩ := q
  simp only [shift, Coord.mk.injEq]
  omega

theorem before_shift : (p.shift dr dc).Before (q.shift dr dc) ↔ p.Before q := by
  simp only [Before, shift]
  omega

theorem exists_shift (q : Coord) (dr dc : Int) : ∃ p : Coord, p.shift dr dc = q := by
  refine ⟨q.shift (-dr) (-dc), ?_⟩
  obtain ⟨r, c⟩ := q
  simp only [shift, Coord.mk.injEq]
  omega

end Coord

/-- A defect of a maze as it is a defect of a copy. -/
def Defect.moved (dr dc : Int) : Defect → Defect
  | sharedRegion p q => sharedRegion (p.shift dr dc) (q.shift dr dc)
  | d => d

/-- A condition of a maze as it is one of a copy. -/
def MazeError.moved (dr dc : Int) : MazeError → MazeError
  | defect d row col => defect (d.moved dr dc) (row.map (· + dr)) (col.map (· + dc))
  | e => e

/-- A fault of a maze as it is one of a copy. -/
def Fault.moved (dr dc : Int) : Fault → Fault
  | maze e => maze (e.moved dr dc)
  | e => e

/-- A condition stays what it is when a maze is moved. -/
theorem MazeError.label_moved (dr dc : Int) (e : MazeError) : (e.moved dr dc).label = e.label := by
  cases e <;> rfl

/-- The table with another reading of the gates of all legs. -/
def LegTable.reread (r : IdSet → IdSet) (t : LegTable) : LegTable :=
  t.map (Option.map fun leg => { leg with gates := r leg.gates })

theorem LegTable.reread_id (t : LegTable) : t.reread id = t := by
  have hid : (Option.map fun leg : Leg => { leg with gates := id leg.gates }) = id := by
    funext leg?
    cases leg? <;> rfl
  unfold LegTable.reread
  rw [hid]
  exact PairTable.map_id t

/-- A visit of a maze as it is made in a copy. -/
def Visit.moved (dr dc : Int) (r : IdSet → IdSet) (v : Visit) : Visit :=
  ⟨v.place.shift dr dc, v.moves, r v.gates⟩

namespace Maze

/-- The gates on a walk once it enters a place. -/
def entering (m : Maze) (p : Coord) (s : IdSet) : IdSet :=
  match m.at? p with
  | some (.gate g) => s.add g
  | _ => s

/-- `m'` holds a copy of `m` that lies `dr` rows further down and `dc` columns further to the right. A
set of gates in `m` is read as `r` of it in `m'`. -/
structure Copy (m m' : Maze) (dr dc : Int) (r : IdSet → IdSet) : Prop where
  isOpen : ∀ p, m'.IsOpen (p.shift dr dc) ↔ m.IsOpen p
  key : ∀ p k, m'.at? (p.shift dr dc) = some (.key k) ↔ m.at? p = some (.key k)
  start : ∀ p, m'.at? (p.shift dr dc) = some .start ↔ m.at? p = some .start
  entering : ∀ p s, m'.entering (p.shift dr dc) (r s) = r (m.entering p s)
  empty : r .empty = .empty

variable {m m' : Maze} {dr dc : Int} {r : IdSet → IdSet} {p : Coord} {marks marks' : Board Bool}

theorem go?_eq (m : Maze) (v : Visit) (d : Move) : m.go? v d =
    if m.IsOpen (v.place.step d) then
      some ⟨v.place.step d, v.moves + 1, m.entering (v.place.step d) v.gates⟩
    else none := by
  refine Option.ext fun u => ?_
  rw [go?_eq_some_iff, Option.ite_none_right_eq_some, Option.some.injEq, eq_comm (b := u)]
  exact Iff.rfl

/-- Marks of a maze and of a copy that agree on the open places. -/
def MarkedAlike (m : Maze) (dr dc : Int) (marks marks' : Board Bool) : Prop :=
  ∀ p, m.IsOpen p → marks'.get? (p.shift dr dc) = marks.get? p

/-- Marking one more open place on both sides. -/
theorem MarkedAlike.set (h : m.MarkedAlike dr dc marks marks') (hp : m.IsOpen p) (b : Bool) :
    m.MarkedAlike dr dc (marks.set p b) (marks'.set (p.shift dr dc) b) := by
  intro q hq
  have hholds : marks'.Holds (p.shift dr dc) ↔ marks.Holds p := by
    rw [← Board.isSome_get?, ← Board.isSome_get?, h p hp]
  simp only [Board.get?_set, Coord.shift_inj, hholds, h q hq]

namespace Copy

variable (h : m.Copy m' dr dc r)
include h

/-- **The keys of a copy** are those of the maze. -/
theorem keys : m'.keys = m.keys.map fun k => (k.1, k.2.shift dr dc) := by
  have hsorted : (m.keys.map fun k => (k.1, k.2.shift dr dc)).Pairwise fun a b => a.1 < b.1 :=
    List.pairwise_map.2 m.sorted_keys
  have hne : ∀ {a b : Letter × Coord}, a.1 < b.1 → a ≠ b := by
    rintro a b hab rfl
    exact Fin.lt_irrefl _ hab
  have hmem : ∀ k q, (k, q) ∈ m'.keys ↔ (k, q) ∈ m.keys.map fun k => (k.1, k.2.shift dr dc) := by
    intro k q
    obtain ⟨p, rfl⟩ := q.exists_shift dr dc
    rw [mem_keys, h.key, ← mem_keys, List.mem_map]
    constructor
    · intro hk
      exact ⟨(k, p), hk, rfl⟩
    · rintro ⟨⟨j, x⟩, hj, he⟩
      obtain ⟨rfl, hx⟩ := Prod.mk.injEq .. ▸ he
      exact Coord.shift_inj.1 hx ▸ hj
  have hperm := (List.perm_ext_iff_of_nodup (m'.sorted_keys.imp hne) (hsorted.imp hne)).2
    fun k => hmem k.1 k.2
  exact hperm.eq_of_pairwise (fun a b _ _ hab hba => absurd hab (Fin.lt_asymm hba)) m'.sorted_keys
    hsorted

theorem keyIds : m'.keyIds = m.keyIds := by
  unfold Maze.keyIds
  rw [h.keys, List.map_map]
  rfl

theorem startId : m'.startId = m.startId := by
  unfold Maze.startId
  rw [h.keys, List.getLast?_map]
  cases m.keys.getLast? <;> rfl

/-- **The starts of a copy** are those of the maze. -/
theorem starts : m'.starts = m.starts.map fun p => p.shift dr dc := by
  refine Coord.eq_of_sorted (m'.sorted_placesOf .start) ?_ fun q => ?_
  · refine List.pairwise_map.2 ((m.sorted_placesOf .start).imp ?_)
    intro p q hpq
    exact Coord.before_shift.2 hpq
  · obtain ⟨p, rfl⟩ := q.exists_shift dr dc
    rw [mem_starts, h.start, ← mem_starts, List.mem_map]
    constructor
    · intro hp
      exact ⟨p, hp, rfl⟩
    · rintro ⟨x, hx, he⟩
      exact Coord.shift_inj.1 he ▸ hx

theorem landmark? (p : Coord) : m'.landmark? (p.shift dr dc) = m.landmark? p := by
  refine Option.ext fun a => ?_
  simp only [landmark?_eq_some_iff, h.key, h.start, h.startId]

/-- A move in a copy. -/
theorem go? (v : Visit) (d : Move) :
    m'.go? (v.moved dr dc r) d = (m.go? v d).map (Visit.moved dr dc r) := by
  have hstep : (v.moved dr dc r).place.step d = (v.place.step d).shift dr dc :=
    Coord.step_shift v.place d
  have hgates := h.entering (v.place.step d) v.gates
  rw [go?_eq, go?_eq, hstep]
  by_cases ho : m.IsOpen (v.place.step d)
  · rw [if_pos ho, if_pos ((h.isOpen _).2 ho), Option.map_some]
    exact congrArg (fun s => some (Visit.mk _ _ s)) hgates
  · rw [if_neg ho, if_neg fun hc => ho ((h.isOpen _).1 hc), Option.map_none]

theorem neighbours (v : Visit) :
    m'.neighbours (v.moved dr dc r) = (m.neighbours v).map (Visit.moved dr dc r) := by
  unfold Maze.neighbours
  rw [List.map_filterMap]
  exact List.filterMap_congr fun d _ => h.go? v d

end Copy

/-- Every neighbour is an open place. -/
theorem isOpen_of_mem_neighbours {u v : Visit} (hu : u ∈ m.neighbours v) : m.IsOpen u.place := by
  obtain ⟨d, hgo⟩ := mem_neighbours.1 hu
  obtain ⟨ho, rfl⟩ := go?_eq_some_iff.1 hgo
  exact ho

/-- **Of visits to open places the same are new** on both sides, and the marks agree afterwards. -/
theorem MarkedAlike.fresh {vs : List Visit} (hm : m.MarkedAlike dr dc marks marks')
    (hvs : ∀ v ∈ vs, m.IsOpen v.place) :
    (Visit.fresh marks' (vs.map (Visit.moved dr dc r))).2 =
        (Visit.fresh marks vs).2.map (Visit.moved dr dc r) ∧
      m.MarkedAlike dr dc (Visit.fresh marks vs).1
        (Visit.fresh marks' (vs.map (Visit.moved dr dc r))).1 := by
  induction vs generalizing marks marks' with
  | nil => exact ⟨rfl, hm⟩
  | cons v vs ih =>
    have hv : m.IsOpen v.place := hvs v List.mem_cons_self
    have hrest : ∀ u ∈ vs, m.IsOpen u.place := fun u hu => hvs u (List.mem_cons_of_mem v hu)
    have hget : marks'.get? (v.moved dr dc r).place = marks.get? v.place := hm v.place hv
    rw [List.map_cons]
    unfold Visit.fresh
    rw [hget]
    by_cases hnew : marks.get? v.place = some false
    · obtain ⟨hlist, hmarks⟩ := ih (hm.set hv true) hrest
      rw [if_pos hnew, if_pos hnew]
      exact ⟨congrArg (_ :: ·) hlist, hmarks⟩
    · rw [if_neg hnew, if_neg hnew]
      exact ih hm hrest

namespace Copy

variable (h : m.Copy m' dr dc r)
include h

/-- **A queue of a copy** serves the same visits. -/
theorem serve (queue : List Visit) (hm : m.MarkedAlike dr dc marks marks') :
    m'.serve marks' (queue.map (Visit.moved dr dc r)) =
      (m.serve marks queue).map (Visit.moved dr dc r) := by
  induction marks, queue using Maze.serve.induct m generalizing marks' with
  | case1 marks => rw [List.map_nil, Maze.serve, Maze.serve, List.map_nil]
  | case2 marks v queue found =>
    rename_i ih
    have hopen : ∀ u ∈ m.neighbours v, m.IsOpen u.place := fun u => isOpen_of_mem_neighbours
    obtain ⟨hfound, hmarks⟩ := hm.fresh hopen
    rw [List.map_cons, Maze.serve, Maze.serve, List.map_cons, h.neighbours, hfound, ← List.map_append,
      ih hmarks]

/-- **A search of a copy makes the same visits** in the same order. -/
theorem search (hp : m.IsOpen p) :
    m'.search (p.shift dr dc) = (m.search p).map (Visit.moved dr dc r) := by
  have hblank : m.MarkedAlike dr dc (Board.replicate m.board.rows m.board.cols false)
      (Board.replicate m'.board.rows m'.board.cols false) := by
    intro q hq
    have hb : (Board.replicate m.board.rows m.board.cols false).Holds q := hq.holds
    have hb' : (Board.replicate m'.board.rows m'.board.cols false).Holds (q.shift dr dc) :=
      ((h.isOpen q).2 hq).holds
    rw [Board.get?_replicate hb, Board.get?_replicate hb']
  have hserve := h.serve [⟨p, 0, .empty⟩] (hblank.set hp true)
  have horigin : Visit.moved dr dc r ⟨p, 0, .empty⟩ = ⟨p.shift dr dc, 0, .empty⟩ :=
    congrArg (Visit.mk _ _) h.empty
  rw [List.map_singleton, horigin] at hserve
  exact hserve

/-- **What the visits of a copy write into a table.** -/
theorem recordLegs (a : Int) (visits : List Visit) (t : LegTable) :
    m'.recordLegs a (visits.map (Visit.moved dr dc r)) (t.reread r) =
      outcomeMap (LegTable.reread r) (Fault.moved dr dc) (m.recordLegs a visits t) := by
  unfold Maze.recordLegs
  refine foldlM_outcomeMap (fun t v _ => ?_) t
  have hland : m'.landmark? (v.moved dr dc r).place = m.landmark? v.place := h.landmark? v.place
  rw [hland]
  cases m.landmark? v.place with
  | none => rfl
  | some b =>
    simp only
    by_cases hb : b = a
    · rw [if_pos hb, if_pos hb]
      rfl
    · rw [if_neg hb, if_neg hb]
      have hset := PairTable.set_map (f := Option.map fun leg : Leg => { leg with gates := r leg.gates })
        (t := t) (a := a) (b := b) (v := some ⟨v.moves, v.gates⟩)
      refine hset.trans ?_
      cases hw : t.set a b (some ⟨v.moves, v.gates⟩) with
      | ok u => rfl
      | error e =>
        -- a write fails for its ids only, which are those of the maze
        have he : e.moved dr dc = e := by
          unfold PairTable.set PairTable.index at hw
          split at hw
          · cases hw
          · obtain rfl := Except.error.inj hw
            rfl
        rw [outcomeMap_error, he]
        rfl

/-- **What a search of a copy writes**, and which starts it comes to. -/
theorem surveyFrom (hp : m.IsOpen p) (a : Int) (t : LegTable) :
    m'.surveyFrom a (p.shift dr dc) (t.reread r) =
      outcomeMap (fun u => (u.1.reread r, u.2.map fun q => q.shift dr dc)) (Fault.moved dr dc)
        (m.surveyFrom a p t) := by
  have hstarts : (((m.search p).tail.map (Visit.moved dr dc r)).map Visit.place).filter
        (fun q => m'.at? q = some .start) =
      (((m.search p).tail.map Visit.place).filter fun q => m.at? q = some .start).map
        fun q => q.shift dr dc := by
    have hplaces : ((m.search p).tail.map (Visit.moved dr dc r)).map Visit.place =
        ((m.search p).tail.map Visit.place).map fun q => q.shift dr dc := by
      rw [List.map_map, List.map_map]
      rfl
    rw [hplaces, List.filter_map]
    refine congrArg (List.map _) (List.filter_congr fun q _ => ?_)
    exact decide_eq_decide.2 (h.start q)
  simp only [Maze.surveyFrom, h.search hp, ← List.map_tail]
  rw [h.recordLegs, hstarts]
  cases m.recordLegs a (m.search p).tail t <;> rfl

theorem surveyKey (k : Letter × Coord) (hk : k ∈ m.keys) (t : LegTable) :
    m'.surveyKey (t.reread r) (k.1, k.2.shift dr dc) =
      outcomeMap (LegTable.reread r) (Fault.moved dr dc) (m.surveyKey t k) := by
  have ho : m.IsOpen k.2 := isOpen_of_landmark? (landmark?_of_key (mem_keys.1 hk))
  unfold Maze.surveyKey
  rw [h.surveyFrom ho]
  cases m.surveyFrom k.1.val k.2 t <;> rfl

theorem surveyStart (hp : p ∈ m.starts) (t : LegTable) :
    m'.surveyStart (t.reread r) (p.shift dr dc) =
      outcomeMap (LegTable.reread r) (Fault.moved dr dc) (m.surveyStart t p) := by
  have ho : m.IsOpen p := isOpen_of_landmark? (landmark?_of_start (mem_starts.1 hp))
  unfold Maze.surveyStart
  rw [h.startId, h.surveyFrom ho]
  refine outcomeMap_bind (fun u => ?_) _
  obtain ⟨u, qs⟩ := u
  cases qs <;> rfl

/-- **The legs of a copy** are those of the maze with another reading of their gates. When two starts of
the maze are joined, the copy is refused for the same two. -/
theorem legs : m'.legs = outcomeMap (LegTable.reread r) (Fault.moved dr dc) m.legs := by
  have hblank : (PairTable.replicate (m'.startId + 1) none : LegTable) =
      LegTable.reread r (PairTable.replicate (m.startId + 1) none) := by
    rw [h.startId]
    exact (PairTable.map_replicate (Option.map _) (m.startId + 1) none).symm
  have hkeys := foldlM_outcomeMap (fun t k hk => h.surveyKey k hk t)
    (PairTable.replicate (m.startId + 1) none)
  have hstarts : ∀ t : LegTable,
      (m.starts.map fun p => p.shift dr dc).foldlM m'.surveyStart (t.reread r) =
        outcomeMap (LegTable.reread r) (Fault.moved dr dc) (m.starts.foldlM m.surveyStart t) :=
    foldlM_outcomeMap fun t p hp => h.surveyStart hp t
  unfold Maze.legs
  rw [hblank, h.keys, h.starts, hkeys]
  exact outcomeMap_bind hstarts _

end Copy

end Maze

end GatedMaze
