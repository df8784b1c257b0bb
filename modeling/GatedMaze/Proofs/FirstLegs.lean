import GatedMaze.Proofs.FirstWalks
import GatedMaze.Proofs.Legs
import Mathlib

/-!
# Which of two searches a leg comes from

Two landmarks are searched from both of them, and the later search replaces the leg of the earlier one. The
keys come in ascending order and the starts, whose id is above theirs, at the end. So the leg of a pair is
that of the walk which the search from the larger id finds.

* `get_recordLegs`, `get_recordLegs_of_last`: what a search leaves alone and what it writes.
* `keepsFirst_of_search`, `KeepsFirst.after_search`: one search brings such a leg about, and the searches
  that write other pairs keep it.
* `legs_keep_first`: each leg is that of the first of the shortest walks from the landmark with the larger id.
-/

namespace GatedMaze

namespace Maze

variable {m : Maze} {p q x : Coord} {a b c d : Int} {k l : Letter} {t u : LegTable} {v : Visit}
  {vs : List Visit} {reached : List Coord}

/-- Whether two pairs of ids are the same, in one order or the other. -/
def SamePair (a b c d : Int) : Prop := (a = c ∧ b = d) ∨ (a = d ∧ b = c)

theorem get_recordLeg (h : m.recordLeg a t v = .ok u)
    (hne : ∀ b, m.landmark? v.place = some b → b ≠ a → ¬ SamePair a b c d) :
    u.get c d = t.get c d := by
  unfold recordLeg at h
  split at h
  · rw [Except.ok.inj h]
  · next b hb =>
    split at h
    · rw [Except.ok.inj h]
    · next hba => exact (PairTable.get_set h).trans (if_neg (hne b hb hba))

/-- **What a search leaves alone.** -/
theorem get_recordLegs (h : m.recordLegs a vs t = .ok u)
    (hne : ∀ v ∈ vs, ∀ b, m.landmark? v.place = some b → b ≠ a → ¬ SamePair a b c d) :
    u.get c d = t.get c d :=
  foldlM_invariant (P := fun s => s.get c d = t.get c d)
    (fun v hv _ _ hstep hs => (get_recordLeg hstep (hne v hv)).trans hs) h rfl

/-- **What a search writes** for a landmark: the leg of the last visit to it. -/
theorem get_recordLegs_of_last (h : m.recordLegs b vs t = .ok u) (hab : a ≠ b)
    (hlast : (vs.filter fun w => m.landmark? w.place = some a).getLast? = some v) :
    u.get a b = .ok (some ⟨v.moves, v.gates⟩) := by
  induction vs using List.reverseRecOn generalizing u with
  | nil => cases hlast
  | append_singleton vs w ih =>
    rw [recordLegs, List.foldlM_append] at h
    obtain ⟨s, hs, h⟩ := bind_ok_iff.1 h
    rw [List.foldlM_cons] at h
    obtain ⟨s', hw, h⟩ := bind_ok_iff.1 h
    obtain rfl := Except.ok.inj h
    have hw : m.recordLeg b s w = .ok s' := hw
    rw [List.filter_append] at hlast
    by_cases hwa : m.landmark? w.place = some a
    · obtain rfl : w = v := by simpa [hwa] using hlast
      simp only [recordLeg, hwa, if_neg hab] at hw
      rw [PairTable.get_set hw, if_pos (.inr ⟨rfl, rfl⟩)]
    · rw [get_recordLeg hw fun e he _ hsame => ?_]
      · exact ih hs (by simpa [hwa] using hlast)
      · rcases hsame with ⟨rfl, rfl⟩ | ⟨-, rfl⟩
        · exact hab rfl
        · exact hwa he

/-- A landmark that is visited once has the leg of this visit. -/
theorem get_recordLegs_of_mem (h : m.recordLegs b vs t = .ok u) (hv : v ∈ vs)
    (ha : m.landmark? v.place = some a) (hab : a ≠ b)
    (honce : ∀ w ∈ vs, m.landmark? w.place = some a → w = v) :
    u.get a b = .ok (some ⟨v.moves, v.gates⟩) := by
  have hmem : v ∈ vs.filter fun w => m.landmark? w.place = some a :=
    List.mem_filter.2 ⟨hv, decide_eq_true ha⟩
  obtain ⟨w, hlast⟩ := Option.isSome_iff_exists.1
    (List.getLast?_isSome.2 (List.ne_nil_of_mem hmem))
  obtain ⟨hw, hwa⟩ := List.mem_filter.1 (List.mem_of_getLast? hlast)
  obtain rfl := honce w hw (of_decide_eq_true hwa)
  exact get_recordLegs_of_last h hab hlast

/-- Whether the table holds, for the landmarks `a` at `p` and `b` at `q`, the length and the gates of the
first of the shortest walks from `q` to `p`. -/
def KeepsFirst (m : Maze) (t : LegTable) (a b : Int) (p q : Coord) : Prop :=
  ∃ leg ds, t.get a b = .ok (some leg) ∧ m.First q ds p ∧ (ds.length : Int) = leg.distance ∧
    m.gatesOn (q.trail ds) = leg.gates

theorem surveyFrom_ok (h : m.surveyFrom a x t = .ok (u, reached)) :
    m.recordLegs a (m.search x).tail t = .ok u := by
  obtain ⟨s, hs, hsu⟩ := map_ok_iff.1 h
  rw [hs, (Prod.mk.inj hsu).1]

theorem surveyKey_ok {j : Letter × Coord} (h : m.surveyKey t j = .ok u) :
    m.recordLegs j.1.val (m.search j.2).tail t = .ok u := by
  obtain ⟨⟨s, reached⟩, hs, rfl⟩ := map_ok_iff.1 h
  exact surveyFrom_ok hs

theorem surveyStart_ok (h : m.surveyStart t x = .ok u) :
    m.recordLegs m.startId (m.search x).tail t = .ok u := by
  obtain ⟨⟨s, reached⟩, hs, h⟩ := bind_ok_iff.1 h
  cases reached with
  | nil => exact Except.ok.inj h ▸ surveyFrom_ok hs
  | cons y ys => cases h

/-- **A search brings about the leg to a key.** -/
theorem keepsFirst_of_search (hq : m.landmark? q = some b) (hp : m.at? p = some (.key k))
    (hkb : (k.val : Int) ≠ b) (hj : m.Joined q p) (h : m.recordLegs b (m.search q).tail t = .ok u) :
    m.KeepsFirst u k.val b p q := by
  have hb : m.board.Holds q := (isOpen_of_landmark? hq).holds
  have ha := landmark?_of_key hp
  obtain ⟨es, hw⟩ := hj
  obtain ⟨v, hv, rfl⟩ := exists_mem_search hb hw
  obtain ⟨ds, hfirst, hvisit⟩ := first_of_mem_search hb hv
  have hne : v.place ≠ q := by
    intro e
    rw [e, hq] at ha
    exact hkb (Option.some.inj ha).symm
  have htail : v ∈ (m.search q).tail := (mem_tail_search hb).2 ⟨hv, hne⟩
  refine ⟨_, ds, get_recordLegs_of_mem h htail ha hkb fun w hw hwa => ?_, hfirst, ?_, ?_⟩
  · -- the key lies at one place, which is visited once
    have hplace : w.place = v.place := landmark_unique hwa ha (by have := val_lt_startId hp; omega)
    exact List.inj_on_of_nodup_map (nodup_search hb) ((mem_tail_search hb).1 hw).1 hv hplace
  · rw [hvisit]
    rfl
  · rw [hvisit]
    rfl

/-- A search that does not write the pair keeps its leg. -/
theorem KeepsFirst.after_search (hk : m.KeepsFirst t a b p q) (hx : m.landmark? x = some c)
    (hne : ∀ y e, m.landmark? y = some e → m.Joined x y → ¬ SamePair c e a b)
    (h : m.recordLegs c (m.search x).tail t = .ok u) : m.KeepsFirst u a b p q := by
  have hb : m.board.Holds x := (isOpen_of_landmark? hx).holds
  obtain ⟨leg, ds, hget, hfirst⟩ := hk
  refine ⟨leg, ds, ?_, hfirst⟩
  rw [get_recordLegs h fun v hv e he _ => ?_, hget]
  obtain ⟨ds', ⟨hw, -⟩, -⟩ := found_of_mem_search hb ((mem_tail_search hb).1 hv).1
  exact hne v.place e he ⟨ds', hw⟩

/-- The leg of two keys, once they were searched from. -/
theorem keepsFirst_of_keys {ks : List (Letter × Coord)} (hks : ∀ j ∈ ks, m.at? j.2 = some (.key j.1))
    (hsorted : ks.Pairwise fun i j => i.1 < j.1) (hl : (l, q) ∈ ks) (hp : m.at? p = some (.key k))
    (hkl : k < l) (hj : m.Joined q p) (h : ks.foldlM m.surveyKey t = .ok u) :
    m.KeepsFirst u k.val l.val p q := by
  obtain ⟨before, after, rfl⟩ := List.append_of_mem hl
  obtain ⟨-, hafter, -⟩ := List.pairwise_append.1 hsorted
  refine foldlM_established (P := fun s => m.KeepsFirst s k.val l.val p q) (fun s s' hs => ?_)
    (fun j hj' s s' hs hkeeps => ?_) h
  · have hq := landmark?_of_key (hks (l, q) (by simp))
    exact keepsFirst_of_search hq hp (by have := Fin.lt_def.1 hkl; omega) hj (surveyKey_ok hs)
  · -- a later search starts from a larger key
    have hlt : l < j.1 := (List.pairwise_cons.1 hafter).1 j hj'
    have hj := hks j (by simp [hj'])
    refine hkeeps.after_search (landmark?_of_key hj) (fun y e _ _ hsame => ?_) (surveyKey_ok hs)
    have hkl := Fin.lt_def.1 hkl
    have hlt := Fin.lt_def.1 hlt
    unfold SamePair at hsame
    omega

/-- **Each leg is that of the first of the shortest walks from the landmark with the larger id.** -/
theorem keepsFirst_of_legs (ht : m.legs = .ok t) (hp : m.landmark? p = some a)
    (hq : m.landmark? q = some b) (hab : a < b) (hj : m.Joined q p) : m.KeepsFirst t a b p q := by
  obtain ⟨-, -, halone⟩ := legs_ok ht
  have hbrange := landmark?_range hq
  obtain ⟨k, hk, rfl⟩ := exists_key_of_landmark? hp (by omega)
  unfold legs at ht
  obtain ⟨s, hkeys, hstarts⟩ := bind_ok_iff.1 ht
  rcases landmark?_eq_some_iff.1 hq with ⟨l, hl, rfl⟩ | ⟨hs, rfl⟩
  · have hkeeps : m.KeepsFirst s k.val l.val p q :=
      keepsFirst_of_keys (fun j hj => mem_keys.1 hj) m.sorted_keys (mem_keys.2 hl) hk
        (Fin.lt_def.2 (by omega)) hj hkeys
    -- the starts write pairs of their own id
    refine foldlM_invariant (P := fun s => m.KeepsFirst s k.val l.val p q)
      (fun x hx s s' hs hkeeps => ?_) hstarts hkeeps
    refine hkeeps.after_search (landmark?_of_start (mem_starts.1 hx)) (fun y e _ _ hsame => ?_)
      (surveyStart_ok hs)
    have := val_lt_startId hk
    have := val_lt_startId hl
    unfold SamePair at hsame
    omega
  · obtain ⟨before, after, hsplit⟩ := List.append_of_mem (mem_starts.2 hs)
    rw [hsplit] at hstarts
    have hestablish : ∀ s s', m.surveyStart s q = .ok s' → m.KeepsFirst s' k.val m.startId p q :=
      fun s s' hs => keepsFirst_of_search hq hk (by omega) hj (surveyStart_ok hs)
    refine foldlM_established (P := fun s => m.KeepsFirst s k.val m.startId p q) hestablish
      (fun x hx s s' hstep hkeeps => ?_) hstarts
    by_cases hxq : x = q
    · exact hestablish s s' (hxq ▸ hstep)
    · -- a search from another start does not come to the key
      have hxs : m.at? x = some .start := mem_starts.1 (hsplit ▸ by simp [hx])
      refine hkeeps.after_search (landmark?_of_start hxs) (fun y e hy hxy hsame => hxq ?_)
        (surveyStart_ok hstep)
      obtain rfl : y = p := by
        have hlt := val_lt_startId hk
        rcases hsame with ⟨he, -⟩ | ⟨-, rfl⟩
        · omega
        · exact landmark_unique hy hp (by omega)
      exact halone q hs x hxs (hj.trans (hxy.symm (isOpen_of_landmark? (landmark?_of_start hxs))))

/-- **The gates that the table keeps.** A leg is that of the first of the shortest walks from the landmark
with the larger id, be it a key or the start in the region of the other one: it is as long as this walk, and
its gates are the letters of the gates on it. -/
theorem legs_keep_first (ht : m.legs = .ok t) (hp : m.landmark? p = some a)
    (hq : m.landmark? q = some b) (hab : a < b) (hj : m.Joined q p) : ∃ leg ds,
      t.get a b = .ok (some leg) ∧ m.First q ds p ∧ (ds.length : Int) = leg.distance ∧
      ∀ i, i ∈ leg.gates.toList ↔
        ∃ x ∈ q.trail ds, ∃ g : Letter, m.at? x = some (.gate g) ∧ (g.val : Int) = i := by
  obtain ⟨leg, ds, hget, hfirst, hlength, hgates⟩ := keepsFirst_of_legs ht hp hq hab hj
  refine ⟨leg, ds, hget, hfirst, hlength, fun i => ?_⟩
  rw [← hgates, IdSet.mem_toList, testBit_gatesOn]
  constructor
  · rintro ⟨h0, x, hx, g, hg, hi⟩
    exact ⟨x, hx, g, hg, by omega⟩
  · rintro ⟨x, hx, g, hg, rfl⟩
    exact ⟨Int.natCast_nonneg _, x, hx, g, hg, rfl⟩

end Maze

/-- Two keys and two shortest ways between them, one of them through a gate. -/
def twoWays : Maze where
  board :=
    { rows := 2
      cols := 3
      cells := #[.key ⟨0, by decide⟩, .gate ⟨0, by decide⟩, .start,
        .floor, .key ⟨1, by decide⟩, .floor]
      size_cells := rfl }
  keys_nodup := by decide

/-- From the larger key the way through the gate comes first. -/
theorem legs_keep_first_twoWays : twoWays.landmark? ⟨0, 0⟩ = some 0 ∧
    twoWays.landmark? ⟨1, 1⟩ = some 1 ∧ twoWays.Joined ⟨1, 1⟩ ⟨0, 0⟩ ∧ ∃ t leg ds,
      twoWays.legs = .ok t ∧ t.get 0 1 = .ok (some leg) ∧ leg.gates.toList = [0] ∧ ds.length = 2 ∧
      twoWays.First ⟨1, 1⟩ ds ⟨0, 0⟩ ∧
      ∀ i, i ∈ leg.gates.toList ↔ ∃ x ∈ Coord.trail ⟨1, 1⟩ ds, ∃ g : Letter,
        twoWays.at? x = some (.gate g) ∧ (g.val : Int) = i := by
  have hkey : twoWays.landmark? ⟨0, 0⟩ = some 0 := by decide +kernel
  have hother : twoWays.landmark? ⟨1, 1⟩ = some 1 := by decide +kernel
  have hjoined : twoWays.Joined ⟨1, 1⟩ ⟨0, 0⟩ := ⟨[.up, .left], by decide +kernel, by decide +kernel⟩
  have h : (twoWays.legs >>= fun t => (t.get 0 1).map fun found =>
      found.map fun leg => (leg.gates.toList, leg.distance)) = .ok (some ([0], 2)) := by cbv
  obtain ⟨t, ht, h⟩ := bind_ok_iff.1 h
  obtain ⟨found, hfound, hanswer⟩ := map_ok_iff.1 h
  obtain ⟨leg, ds, hleg, hfirst, hlength, hgates⟩ :=
    Maze.legs_keep_first ht hkey hother (by decide) hjoined
  obtain rfl := Except.ok.inj (hfound.symm.trans hleg)
  obtain ⟨hzero, htwo⟩ := Prod.mk.inj (Option.some.inj hanswer)
  exact ⟨hkey, hother, hjoined, t, leg, ds, ht, hleg, hzero, by omega, hfirst, hgates⟩

end GatedMaze
