import GatedMaze.Proofs.Landmarks
import GatedMaze.Proofs.Outcomes
import GatedMaze.Proofs.Search

/-!
# The legs of a maze

Each leg of the table stands for a shortest walk between two landmarks, whichever of them it was
searched from; and where a walk joins two landmarks there is a leg.

* `LegBetween.symm`: a leg can be walked in both directions.
* `recordLegs_spec`, `surveyFrom_spec`: what one search writes.
* `mem_startsFrom`, `sorted_startsFrom`: which starts it comes to.
* `legs_spec`: there is a table exactly when no walk joins two starts, and what it holds then; else
  which two starts are reported.
* `exists_legs`: a maze with one start has legs.
-/

namespace GatedMaze

namespace PairTable

variable {α : Type} {t : PairTable α} {n : Nat} {a b : Int} {v w : α}

theorem exists_set (h : t.Holds a ∧ t.Holds b) (v : α) : ∃ u, t.set a b v = .ok u := by
  unfold set index
  rw [if_pos h]
  exact ⟨_, rfl⟩

/-- A pair is read in either direction. -/
theorem get_comm (ha : t.Holds a) (hb : t.Holds b) : t.get a b = t.get b a := by
  unfold get
  rw [dif_pos ⟨ha, hb⟩, dif_pos ⟨hb, ha⟩]
  simp only [slot_comm]

theorem eq_of_get_replicate (h : (replicate n v).get a b = .ok w) : w = v := by
  unfold get at h
  split at h
  · simpa [replicate, eq_comm] using h
  · simp at h

end PairTable

namespace Maze

variable {m : Maze} {p q x : Coord} {a b c d : Int} {leg : Leg} {t u : LegTable}

/-- Whether a walk joins two places. -/
def Joined (m : Maze) (p q : Coord) : Prop := ∃ ds, m.Walk p ds q

theorem Joined.symm (h : m.Joined p q) (hp : m.IsOpen p) : m.Joined q p := by
  obtain ⟨ds, hw⟩ := h
  exact ⟨_, hw.back hp⟩

theorem Joined.trans (h : m.Joined p x) (h' : m.Joined x q) : m.Joined p q := by
  obtain ⟨ds, hw⟩ := h
  obtain ⟨es, he⟩ := h'
  exact ⟨_, hw.append he⟩

/-- A leg that stands for a shortest walk from `p` to `q`. -/
def LegBetween (m : Maze) (p q : Coord) (leg : Leg) : Prop :=
  ∃ ds, m.Shortest p ds q ∧ (ds.length : Int) = leg.distance ∧ m.gatesOn (p.trail ds) = leg.gates

/-- **A leg can be walked in both directions.** -/
theorem LegBetween.symm (h : m.LegBetween p q leg) (hp : m.landmark? p = some a)
    (hq : m.landmark? q = some b) : m.LegBetween q p leg := by
  obtain ⟨ds, ⟨hw, hmin⟩, hd, hg⟩ := h
  have hopen := isOpen_of_landmark? hp
  have hopen' := isOpen_of_landmark? hq
  refine ⟨Move.back ds, ⟨hw.back hopen, fun es he => ?_⟩, by rwa [Move.length_back], ?_⟩
  · rw [Move.length_back, ← Move.length_back es]
    exact hmin _ (he.back hopen')
  · obtain rfl := hw.ends
    rw [gatesOn_back (not_gate_of_landmark? hp) (not_gate_of_landmark? hq), hg]

theorem legBetween_of_found {v : Visit} (h : m.Found p v) :
    m.LegBetween p v.place ⟨v.moves, v.gates⟩ := by
  obtain ⟨ds, hs, hl, hg⟩ := h
  exact ⟨ds, hs, congrArg Int.ofNat hl, hg⟩

/-- A table for the landmarks of a maze in which each leg stands for a shortest walk. -/
structure Charted (m : Maze) (t : LegTable) : Prop where
  holds : ∀ a, t.Holds a ↔ 0 ≤ a ∧ a < m.startId + 1
  sound : ∀ a b leg, t.get a b = .ok (some leg) → a ≠ b ∧
    ∃ p q, m.landmark? p = some a ∧ m.landmark? q = some b ∧ m.LegBetween p q leg

/-- Every pair with a leg in one table has one in the other. -/
def Grown (t u : LegTable) : Prop :=
  ∀ a b leg, t.get a b = .ok (some leg) → ∃ leg', u.get a b = .ok (some leg')

theorem Grown.refl (t : LegTable) : Grown t t := fun _ _ leg h => ⟨leg, h⟩

theorem Grown.trans {v : LegTable} (h : Grown t u) (h' : Grown u v) : Grown t v := by
  intro a b leg hl
  obtain ⟨leg', hl'⟩ := h a b leg hl
  exact h' a b leg' hl'

theorem charted_replicate : m.Charted (PairTable.replicate (m.startId + 1) none) where
  holds := fun a => by simp [PairTable.Holds, PairTable.replicate]
  sound := fun a b leg h => by cases PairTable.eq_of_get_replicate h

/-- **One leg written in.** -/
theorem Charted.set (ht : m.Charted t) (hp : m.landmark? p = some a) (hq : m.landmark? q = some b)
    (hab : b ≠ a) (hleg : m.LegBetween p q leg) :
    ∃ u, t.set a b (some leg) = .ok u ∧ m.Charted u ∧ Grown t u ∧ u.get a b = .ok (some leg) := by
  obtain ⟨u, hu⟩ := PairTable.exists_set (t := t)
    ⟨(ht.holds a).2 (landmark?_range hp), (ht.holds b).2 (landmark?_range hq)⟩ (some leg)
  have hget : ∀ c d, u.get c d = _ := fun c d => PairTable.get_set hu
  refine ⟨u, hu, ⟨fun c => (PairTable.holds_of_set hu c).trans (ht.holds c), ?_⟩, ?_, ?_⟩
  · intro c d leg' hl
    rw [hget] at hl
    split at hl
    · next h =>
      obtain rfl : leg = leg' := by simpa using hl
      rcases h with ⟨rfl, rfl⟩ | ⟨rfl, rfl⟩
      · exact ⟨hab.symm, p, q, hp, hq, hleg⟩
      · exact ⟨hab, q, p, hq, hp, hleg.symm hp hq⟩
    · exact ht.sound c d leg' hl
  · intro c d leg' hl
    rw [hget]
    split
    · exact ⟨leg, rfl⟩
    · exact ⟨leg', hl⟩
  · rw [hget, if_pos (.inl ⟨rfl, rfl⟩)]

/-- The table with the leg to the landmark of one visit written in. -/
def recordLeg (m : Maze) (origin : Int) (t : LegTable) (v : Visit) : Except Fault LegTable :=
  match m.landmark? v.place with
  | none => .ok t
  | some id => if id = origin then .ok t else t.set origin id (some ⟨v.moves, v.gates⟩)

theorem recordLegs_cons {v : Visit} {vs : List Visit} : m.recordLegs a (v :: vs) t =
    m.recordLeg a t v >>= m.recordLegs a vs := rfl

/-- **The leg of one visit written in.** -/
theorem recordLeg_spec {v : Visit} (ht : m.Charted t) (hp : m.landmark? p = some a)
    (hv : m.Found p v) :
    ∃ u, m.recordLeg a t v = .ok u ∧ m.Charted u ∧ Grown t u ∧
      ∀ b, m.landmark? v.place = some b → b ≠ a → ∃ leg, u.get a b = .ok (some leg) := by
  unfold recordLeg
  cases hl : m.landmark? v.place with
  | none => exact ⟨t, rfl, ht, .refl t, by simp⟩
  | some id =>
    by_cases hid : id = a
    · refine ⟨t, if_pos hid, ht, .refl t, fun b hb hne => absurd ?_ hne⟩
      rw [← Option.some.inj hb, hid]
    · obtain ⟨u, hu, hc, hg, hget⟩ := ht.set hp hl hid (legBetween_of_found hv)
      refine ⟨u, (if_neg hid).trans hu, hc, hg, fun b hb _ => ?_⟩
      obtain rfl := Option.some.inj hb
      exact ⟨_, hget⟩

/-- **The legs of visits written in.** -/
theorem recordLegs_spec {visits : List Visit} (ht : m.Charted t) (hp : m.landmark? p = some a)
    (hv : ∀ v ∈ visits, m.Found p v) :
    ∃ u, m.recordLegs a visits t = .ok u ∧ m.Charted u ∧ Grown t u ∧
      ∀ v ∈ visits, ∀ b, m.landmark? v.place = some b → b ≠ a →
        ∃ leg, u.get a b = .ok (some leg) := by
  induction visits generalizing t with
  | nil => exact ⟨t, rfl, ht, .refl t, by simp⟩
  | cons v vs ih =>
    have hvs : ∀ v ∈ vs, m.Found p v := fun v h => hv v (List.mem_cons_of_mem _ h)
    obtain ⟨s, hs, hc, hg, hget⟩ := recordLeg_spec ht hp (hv v List.mem_cons_self)
    obtain ⟨u, hu, hcu, hgu, hrest⟩ := ih hc hvs
    refine ⟨u, ?_, hcu, hg.trans hgu, fun w hw b hb hne => ?_⟩
    · rw [recordLegs_cons]
      exact bind_ok_iff.2 ⟨s, hs, hu⟩
    · rcases List.mem_cons.1 hw with rfl | hw
      · obtain ⟨leg, hleg⟩ := hget b hb hne
        exact hgu a b leg hleg
      · exact hrest w hw b hb hne

/-- A table that has a leg from the landmark `a` at `p` to every other landmark that a walk joins
to it. -/
def Covers (m : Maze) (t : LegTable) (a : Int) (p : Coord) : Prop :=
  ∀ q b, m.landmark? q = some b → b ≠ a → m.Joined p q → ∃ leg, t.get a b = .ok (some leg)

theorem Covers.grown (h : m.Covers t a p) (hg : Grown t u) : m.Covers u a p := by
  intro q b hq hne hj
  obtain ⟨leg, hleg⟩ := h q b hq hne hj
  exact hg a b leg hleg

/-- The starts that a search from `p` comes to, other than its origin. -/
def startsFrom (m : Maze) (p : Coord) : List Coord :=
  ((m.search p).tail.map Visit.place).filter fun q => m.at? q = some .start

theorem mem_startsFrom (hb : m.board.Holds p) :
    q ∈ m.startsFrom p ↔ m.at? q = some .start ∧ m.Joined p q ∧ q ≠ p := by
  simp only [startsFrom, List.mem_filter, List.mem_map, decide_eq_true_eq]
  constructor
  · rintro ⟨⟨v, hv, rfl⟩, hs⟩
    obtain ⟨hv, hne⟩ := (mem_tail_search hb).1 hv
    obtain ⟨ds, ⟨hw, -⟩, -⟩ := found_of_mem_search hb hv
    exact ⟨hs, ⟨ds, hw⟩, hne⟩
  · rintro ⟨hs, ⟨ds, hw⟩, hne⟩
    obtain ⟨v, hv, rfl⟩ := exists_mem_search hb hw
    exact ⟨⟨v, (mem_tail_search hb).2 ⟨hv, hne⟩, rfl⟩, hs⟩

/-- **A search comes to the nearest start first.** -/
theorem sorted_startsFrom (hb : m.board.Holds p) :
    (m.startsFrom p).Pairwise fun x y => ∀ n k, m.Apart p n x → m.Apart p k y → n ≤ k := by
  refine List.Pairwise.filter _ (List.pairwise_map.2 ?_)
  refine List.Pairwise.imp_of_mem ?_ (sorted_search hb).tail
  intro v w hv hw hle n k hn hk
  -- a visit knows how far its place is from the origin
  obtain rfl := (found_of_mem_search hb ((mem_tail_search hb).1 hv).1).apart.unique hn
  obtain rfl := (found_of_mem_search hb ((mem_tail_search hb).1 hw).1).apart.unique hk
  exact hle

/-- **What one search writes**, and which starts it comes to. -/
theorem surveyFrom_spec (ht : m.Charted t) (hp : m.landmark? p = some a) :
    ∃ u, m.surveyFrom a p t = .ok (u, m.startsFrom p) ∧ m.Charted u ∧ Grown t u ∧
      m.Covers u a p := by
  have hb : m.board.Holds p := (isOpen_of_landmark? hp).holds
  have hfound : ∀ v ∈ (m.search p).tail, m.Found p v :=
    fun v hv => found_of_mem_search hb ((mem_tail_search hb).1 hv).1
  obtain ⟨u, hu, hc, hg, hget⟩ := recordLegs_spec ht hp hfound
  refine ⟨u, by rw [surveyFrom, hu]; rfl, hc, hg, ?_⟩
  rintro q b hq hne ⟨ds, hw⟩
  obtain ⟨v, hv, rfl⟩ := exists_mem_search hb hw
  refine hget v ((mem_tail_search hb).2 ⟨hv, fun e => hne ?_⟩) b hq hne
  rw [e, hp] at hq
  exact (Option.some.inj hq).symm

/-- The searches from keys. -/
theorem surveyKeys_spec {ks : List (Letter × Coord)} (ht : m.Charted t)
    (hks : ∀ k ∈ ks, m.at? k.2 = some (.key k.1)) :
    ∃ u, ks.foldlM m.surveyKey t = .ok u ∧ m.Charted u ∧ Grown t u ∧
      ∀ k ∈ ks, m.Covers u k.1.val k.2 := by
  induction ks generalizing t with
  | nil => exact ⟨t, rfl, ht, .refl t, by simp⟩
  | cons k ks ih =>
    obtain ⟨s, hs, hc, hg, hcov⟩ :=
      surveyFrom_spec ht (landmark?_of_key (hks k List.mem_cons_self))
    obtain ⟨u, hu, hcu, hgu, hrest⟩ := ih hc fun j hj => hks j (List.mem_cons_of_mem _ hj)
    refine ⟨u, ?_, hcu, hg.trans hgu, fun j hj => ?_⟩
    · rw [List.foldlM_cons, surveyKey, hs]
      exact hu
    · rcases List.mem_cons.1 hj with rfl | hj
      · exact hcov.grown hgu
      · exact hrest j hj

/-- Whether no walk joins the start at `p` to another one. -/
def Alone (m : Maze) (p : Coord) : Prop := ∀ q, m.at? q = some .start → m.Joined p q → q = p

/-- Another start that a walk joins to the place `p`, with none nearer. -/
structure NearestStart (m : Maze) (p q : Coord) : Prop where
  start : m.at? q = some .start
  joined : m.Joined p q
  other : q ≠ p
  nearest : ∀ x, m.at? x = some .start → x ≠ p → ∀ n k, m.Apart p n q → m.Apart p k x → n ≤ k

/-- A search from a start succeeds when it comes to no other start, and else names a nearest one. -/
theorem surveyStart_spec (ht : m.Charted t) (hp : m.at? p = some .start) :
    (∃ u, m.surveyStart t p = .ok u ∧ m.Charted u ∧ Grown t u ∧ m.Covers u m.startId p ∧ m.Alone p) ∨
      ∃ q, m.NearestStart p q ∧ m.surveyStart t p = .error (.defectAt (.sharedRegion p q) q) := by
  have hb : m.board.Holds p := (isOpen_of_landmark? (landmark?_of_start hp)).holds
  have hmem : ∀ q, q ∈ m.startsFrom p ↔ _ := fun q => mem_startsFrom hb
  have hsorted := sorted_startsFrom hb
  obtain ⟨u, hu, hc, hg, hcov⟩ := surveyFrom_spec ht (landmark?_of_start hp)
  unfold surveyStart
  rw [hu]
  cases hs : m.startsFrom p with
  | nil =>
    refine .inl ⟨u, rfl, hc, hg, hcov, fun q hq hj => ?_⟩
    by_contra hne
    have := (hmem q).2 ⟨hq, hj, hne⟩
    rw [hs] at this
    simp at this
  | cons q qs =>
    rw [hs] at hsorted
    have hq := (hmem q).1 (hs ▸ List.mem_cons_self)
    refine .inr ⟨q, ⟨hq.1, hq.2.1, hq.2.2, fun x hx hxp n k hn hk => ?_⟩, rfl⟩
    obtain ⟨ds, hw, -⟩ := hk.1
    have hxs := (hmem x).2 ⟨hx, ⟨ds, hw⟩, hxp⟩
    rw [hs] at hxs
    rcases List.mem_cons.1 hxs with rfl | hxs
    · exact Nat.le_of_eq (hn.unique hk)
    · exact (List.pairwise_cons.1 hsorted).1 x hxs n k hn hk

/-- The searches from starts succeed when each start is alone, and else name the first that is
not. -/
theorem surveyStarts_spec {ps : List Coord} (ht : m.Charted t)
    (hps : ∀ p ∈ ps, m.at? p = some .start) :
    (∃ u, ps.foldlM m.surveyStart t = .ok u ∧ m.Charted u ∧ Grown t u ∧
        ∀ p ∈ ps, m.Covers u m.startId p ∧ m.Alone p) ∨
      ∃ before p after q, ps = before ++ p :: after ∧ (∀ x ∈ before, m.Alone x) ∧
        m.NearestStart p q ∧
        ps.foldlM m.surveyStart t = .error (.defectAt (.sharedRegion p q) q) := by
  induction ps generalizing t with
  | nil => exact .inl ⟨t, rfl, ht, .refl t, by simp⟩
  | cons p ps ih =>
    have hrest : ∀ q ∈ ps, m.at? q = some .start := fun q h => hps q (List.mem_cons_of_mem _ h)
    rw [List.foldlM_cons]
    rcases surveyStart_spec ht (hps p List.mem_cons_self) with
      ⟨s, hs, hc, hg, hcov, ha⟩ | ⟨q, hq, he⟩
    · rw [hs]
      rcases ih hc hrest with ⟨u, hu, hcu, hgu, hall⟩ | ⟨before, x, after, q, rfl, hb, hq, he⟩
      · refine .inl ⟨u, hu, hcu, hg.trans hgu, fun q hq => ?_⟩
        rcases List.mem_cons.1 hq with rfl | hq
        · exact ⟨hcov.grown hgu, ha⟩
        · exact hall q hq
      · exact .inr ⟨p :: before, x, after, q, rfl, List.forall_mem_cons.2 ⟨ha, hb⟩, hq, he⟩
    · rw [he]
      exact .inr ⟨[], p, ps, q, rfl, by simp, hq, rfl⟩

/-- **The legs of a maze**: when each start is alone there is a table, which is charted and covers
every landmark; else the first start that is not alone is reported with a nearest other one. -/
theorem legs_spec (m : Maze) :
    (∃ t, m.legs = .ok t ∧ m.Charted t ∧ (∀ p a, m.landmark? p = some a → m.Covers t a p) ∧
        ∀ p, m.at? p = some .start → m.Alone p) ∨
      ∃ before p after q, m.starts = before ++ p :: after ∧ (∀ x ∈ before, m.Alone x) ∧
        m.NearestStart p q ∧ m.legs = .error (.defectAt (.sharedRegion p q) q) := by
  obtain ⟨s, hs, hc, -, hkeys⟩ :=
    surveyKeys_spec charted_replicate fun k (hk : k ∈ m.keys) => mem_keys.1 hk
  have hlegs : m.legs = m.starts.foldlM m.surveyStart s := by
    unfold legs
    rw [hs]
    rfl
  rw [hlegs]
  rcases surveyStarts_spec hc fun p (hp : p ∈ m.starts) => mem_starts.1 hp with
    ⟨t, ht, hct, hg, hall⟩ | herr
  · refine .inl ⟨t, ht, hct, fun p a ha => ?_, fun p hp => (hall p (mem_starts.2 hp)).2⟩
    rcases landmark?_eq_some_iff.1 ha with ⟨k, hk, rfl⟩ | ⟨hp, rfl⟩
    · exact (hkeys (k, p) (mem_keys.2 hk)).grown hg
    · exact (hall p (mem_starts.2 hp)).1
  · exact .inr herr

/-- A maze whose legs are known: its table is charted, covers every landmark, and no walk joins two
starts. -/
theorem legs_ok (h : m.legs = .ok t) : m.Charted t ∧
    (∀ p a, m.landmark? p = some a → m.Covers t a p) ∧ ∀ p, m.at? p = some .start → m.Alone p := by
  rcases m.legs_spec with ⟨u, hu, hspec⟩ | ⟨_, _, _, q, -, -, -, he⟩
  · rw [hu, Except.ok.injEq] at h
    exact h ▸ hspec
  · rw [he] at h
    cases h

/-- A maze with one start has legs. -/
theorem exists_legs (h : ∀ p q, m.at? p = some .start → m.at? q = some .start → p = q) :
    ∃ t, m.legs = .ok t := by
  rcases m.legs_spec with ⟨t, ht, -⟩ | ⟨before, p, after, q, hps, -, hq, -⟩
  · exact ⟨t, ht⟩
  · have hp : m.at? p = some .start := mem_starts.1 (hps ▸ List.mem_append_right _ List.mem_cons_self)
    exact absurd (h q p hq.start hp) hq.other

end Maze

end GatedMaze
