import GatedMaze.Proofs.Gates
import GatedMaze.Proofs.Legs
import GatedMaze.Proofs.Orders

/-!
# First visits

The order in which a walk from the start first comes to keys is an order of keys that can be
compared with the walk. The piece of the walk since its last first visit is a way to the place where
it stands, so it is at least as long as the leg to the next key.

* `exists_since_first_visit`: an accepted order of first visits costs no more than the walk.
* `next_of_first_visit`: what it takes to fetch the key that a walk comes to.
* `exists_along_firstVisits`: where gates cannot be avoided, orders of first visits are accepted.
-/

namespace GatedMaze.Maze

open Walker

/-- The keys among places, in the order in which each comes first. -/
def firstVisits (m : Maze) (xs : List Coord) : List Int :=
  xs.foldl (fun o x => match m.at? x with
    | some (.key k) => if (k.val : Int) ∈ o then o else o ++ [(k.val : Int)]
    | _ => o) []

variable {m : Maze} {xs : List Coord} {s p q x : Coord} {ds : List Move} {a : Int} {t : LegTable}
  {w w' : Walker}

theorem firstVisits_append_single : m.firstVisits (xs ++ [x]) = match m.at? x with
    | some (.key k) => if (k.val : Int) ∈ m.firstVisits xs then m.firstVisits xs
        else m.firstVisits xs ++ [(k.val : Int)]
    | _ => m.firstVisits xs := by
  rw [firstVisits, List.foldl_append]
  rfl

theorem mem_firstVisits : a ∈ m.firstVisits xs ↔
    ∃ x ∈ xs, ∃ k : Letter, m.at? x = some (.key k) ∧ (k.val : Int) = a := by
  induction xs using List.reverseRecOn with
  | nil => simp [firstVisits]
  | append_singleton xs y ih =>
    rw [firstVisits_append_single]
    simp only [List.mem_append, List.mem_singleton, or_and_right, exists_or, exists_eq_left]
    rw [← ih]
    split
    · next k hk =>
      split
      · next hmem =>
        constructor
        · exact .inl
        · rintro (h | ⟨j, hj, rfl⟩)
          · exact h
          · rw [hk, Option.some.injEq, Cell.key.injEq] at hj
            exact hj ▸ hmem
      · next hnew => simp [hk, eq_comm]
    · next hk =>
      have hno : ∀ k, m.at? y ≠ some (.key k) := hk
      simp [hno]

theorem nodup_firstVisits : (m.firstVisits xs).Nodup := by
  induction xs using List.reverseRecOn with
  | nil => exact List.nodup_nil
  | append_singleton xs y ih =>
    rw [firstVisits_append_single]
    split
    · split
      · exact ih
      · next hnew =>
        refine List.nodup_append.2 ⟨ih, List.pairwise_singleton _ _, fun a ha b hb e => hnew ?_⟩
        rw [← List.mem_singleton.1 hb, ← e]
        exact ha
    · exact ih

/-- One more place adds its key, if that is new. -/
theorem firstVisits_cases (m : Maze) (xs : List Coord) (x : Coord) :
    m.firstVisits (xs ++ [x]) = m.firstVisits xs ∨
      ∃ k : Letter, m.at? x = some (.key k) ∧ (k.val : Int) ∉ m.firstVisits xs ∧
        m.firstVisits (xs ++ [x]) = m.firstVisits xs ++ [(k.val : Int)] := by
  rw [firstVisits_append_single]
  split
  · next k hk =>
    split
    · exact .inl rfl
    · next hnew => exact .inr ⟨k, hk, hnew, rfl⟩
  · exact .inl rfl

/-- Collecting all keys makes the first visits an ordering of them. -/
theorem isOrdering_firstVisits (h : ∀ k x, m.at? x = some (.key k) → x ∈ xs) :
    IsOrdering m.keyIds (m.firstVisits xs) := by
  refine ⟨nodup_firstVisits, fun a => ?_⟩
  rw [mem_firstVisits, mem_keyIds]
  constructor
  · rintro ⟨x, -, k, hk, rfl⟩; exact ⟨k, x, hk, rfl⟩
  · rintro ⟨k, x, hk, rfl⟩; exact ⟨x, h k x hk, k, hk, rfl⟩

/-- The gates that a walk has entered are among the keys held after its first visits. -/
theorem gatesOn_subset_held (ha : along t m.startId none (m.firstVisits (s :: s.trail ds)) = .ok w)
    (hadm : m.Admits [s] (s.trail ds)) : (m.gatesOn (s.trail ds)).subset w.held = true := by
  rw [IdSet.subset_iff]
  intro i hi
  obtain ⟨y, hy, g, hg, rfl⟩ := testBit_gatesOn.1 (IdSet.mem_toNats.1 hi)
  obtain ⟨z, hz, hkz⟩ := hadm.exists_key hy hg
  rw [IdSet.mem_toNats, testBit_held ha, mem_firstVisits]
  exact ⟨z, by simpa using hz, g, hkz, rfl⟩

section OneStart

variable (hs : ∀ p, m.at? p = some .start ↔ p = s)
include hs

theorem firstVisits_start : m.firstVisits [s] = [] := by
  have h := (hs s).2 rfl
  simp [firstVisits, h]

/-- Every landmark of a maze with one start lies at one place. -/
theorem landmark_unique_of_one_start (hp : m.landmark? p = some a) (hq : m.landmark? q = some a) :
    p = q := by
  by_cases ha : a = m.startId
  · subst ha
    rw [(hs p).1 (landmark?_eq_start_iff.1 hp), (hs q).1 (landmark?_eq_start_iff.1 hq)]
  · exact landmark_unique hp hq ha

/-- **The way since the last first visit.** When the order of first visits is accepted, the walker
along it stands at a landmark from which a piece of the walk leads on, and has made no more moves
than the walk before that piece. -/
theorem exists_since_first_visit (ht : m.legs = .ok t) (hw : m.Walk s ds q)
    (ha : along t m.startId none (m.firstVisits (s :: s.trail ds)) = .ok w) :
    ∃ p es, m.landmark? p = some w.last ∧ m.Walk p es q ∧
      w.walked + es.length ≤ ds.length ∧ p.trail es ⊆ s.trail ds := by
  induction ds using List.reverseRecOn generalizing q w with
  | nil =>
    obtain rfl := walk_nil_iff.1 hw
    rw [Coord.trail, firstVisits_start hs] at ha
    obtain rfl := along_nil_ok.1 ha
    exact ⟨s, [], landmark?_of_start ((hs s).2 rfl), hw, by simp [atStart], by simp [Coord.trail]⟩
  | append_singleton ds d ih =>
    obtain ⟨hfront, hlast⟩ := walk_append_iff.1 hw
    have htrail := hlast.trail_append_single
    rw [htrail, ← List.cons_append] at ha
    rw [htrail]
    -- a way to the place before `q` goes on to `q`
    have extend : ∀ p es, p.trail es ⊆ s.trail ds → m.Walk p es (s.follow ds) →
        m.Walk p (es ++ [d]) q ∧ p.trail (es ++ [d]) ⊆ s.trail ds ++ [q] := by
      intro p es hsub he
      refine ⟨he.append hlast, ?_⟩
      rw [Coord.trail_append, he.ends, ← hlast.ends]
      exact List.append_subset.2 ⟨List.Subset.trans hsub (List.subset_append_left _ _),
        List.subset_append_right _ _⟩
    rcases m.firstVisits_cases (s :: s.trail ds) q with hsame | ⟨k, hk, -, hnew⟩
    · rw [hsame] at ha
      obtain ⟨p, es, hp, he, hle, hsub⟩ := ih hfront ha
      obtain ⟨hwalk, hsub'⟩ := extend p es hsub he
      refine ⟨p, es ++ [d], hp, hwalk, ?_, hsub'⟩
      simp only [List.length_append, List.length_singleton]
      omega
    · rw [hnew] at ha
      obtain ⟨v, hv, hnext⟩ := along_append_ok.1 ha
      obtain ⟨p, es, hp, he, hle, hsub⟩ := ih hfront hv
      obtain ⟨-, -, quadrant, leg, hquad, hleg, -, rfl⟩ := next_eq_ok_iff.1 hnext
      cases hquad
      have hkey := landmark?_of_key hk
      -- the leg is a shortest way to the key, so the piece of the walk is no shorter
      obtain ⟨-, p', q', hp', hq', ds', ⟨-, hmin⟩, hd, -⟩ := (legs_ok ht).1.sound _ _ leg hleg
      obtain rfl := landmark_unique_of_one_start hs hp hp'
      obtain rfl := landmark_unique_of_one_start hs hkey hq'
      have hlen := hmin _ (extend p es hsub he).1
      refine ⟨q, [], hkey, walk_nil_iff.2 rfl, ?_, by simp [Coord.trail]⟩
      simp only [fetched, List.length_append, List.length_singleton, List.length_nil] at hlen ⊢
      omega

/-- **The next first visit.** The key that a walk comes to is fetched, when the gates on the leg to it
are among those that the walk has entered since its last first visit. -/
theorem next_of_first_visit (ht : m.legs = .ok t) (hw : m.Walk s ds x)
    (ha : along t m.startId none (m.firstVisits (s :: s.trail ds)) = .ok w)
    (hadm : m.Admits [s] (s.trail ds)) {d : Move} (hd : m.Walk x [d] q) {k : Letter}
    (hk : m.at? q = some (.key k)) (hnew : (k.val : Int) ∉ m.firstVisits (s :: s.trail ds))
    (hgates : ∀ p es leg, m.landmark? p = some w.last → m.Walk p es q →
      t.get w.last k.val = .ok (some leg) → leg.gates.subset (m.gatesOn (p.trail es)) = true) :
    ∃ w', next t m.startId none w k.val = .ok w' := by
  obtain ⟨p, es, hp, he, -, hsub⟩ := exists_since_first_visit hs ht hw ha
  have hes : m.Walk p (es ++ [d]) q := he.append hd
  have hkey := landmark?_of_key hk
  have hne : (k.val : Int) ≠ w.last := ne_last_of_notMem ha hnew fun e =>
    startId_notMem_keyIds (mem_keyIds.2 ⟨k, q, hk, e⟩)
  obtain ⟨leg, hleg⟩ := (legs_ok ht).2.1 p _ hp q _ hkey hne ⟨_, hes⟩
  -- the gates on the leg were entered since the last first visit
  have hopen : leg.gates.subset w.held = true := by
    rw [IdSet.subset_iff]
    intro i hi
    have hon := IdSet.subset_iff.1 (hgates p _ leg hp hes hleg) i hi
    obtain ⟨y, hy, g, hg, rfl⟩ := testBit_gatesOn.1 (IdSet.mem_toNats.1 hon)
    rw [Coord.trail_append, he.ends, List.mem_append] at hy
    have hy : y ∈ s.trail ds := by
      rcases hy with hy | hy
      · exact hsub hy
      · have : y = q := by simpa [Coord.trail, (walk_single_iff.1 hd).1] using hy
        rw [this, hk] at hg
        cases hg
    have hentered := testBit_gatesOn.2 ⟨y, hy, g, hg, rfl⟩
    exact IdSet.subset_iff.1 (gatesOn_subset_held ha hadm) _ (IdSet.mem_toNats.2 hentered)
  have hcontains : w.held.contains k.val = false := by
    rw [← Bool.not_eq_true, contains_held ha]
    exact hnew
  have hrange : (0 : Int) ≤ k.val ∧ (k.val : Int) < IdSet.capacity := by
    have := k.isLt
    unfold IdSet.capacity
    omega
  exact ⟨_, next_eq_ok_iff.2 ⟨hcontains, hrange, none, leg, rfl, hleg, hopen, rfl⟩⟩

/-- A table whose gates cannot be avoided: every walk between two landmarks enters the gates that are
on their leg. -/
def Unavoidable (m : Maze) (t : LegTable) : Prop :=
  ∀ a b leg p q ds, t.get a b = .ok (some leg) → m.landmark? p = some a → m.landmark? q = some b →
    m.Walk p ds q → leg.gates.subset (m.gatesOn (p.trail ds)) = true

/-- **Where gates cannot be avoided, orders of first visits are accepted.** -/
theorem exists_along_firstVisits (ht : m.legs = .ok t) (hu : m.Unavoidable t) (hw : m.Walk s ds q)
    (hadm : m.Admits [s] (s.trail ds)) :
    ∃ w, along t m.startId none (m.firstVisits (s :: s.trail ds)) = .ok w := by
  induction ds using List.reverseRecOn generalizing q with
  | nil => exact ⟨_, by rw [Coord.trail, firstVisits_start hs]; exact along_nil⟩
  | append_singleton ds d ih =>
    obtain ⟨hfront, hlast⟩ := walk_append_iff.1 hw
    have htrail := hlast.trail_append_single
    rw [htrail] at hadm
    have hadm := (admits_append_iff.1 hadm).1
    obtain ⟨w, ha⟩ := ih hfront hadm
    rw [htrail, ← List.cons_append]
    rcases m.firstVisits_cases (s :: s.trail ds) q with hsame | ⟨k, hk, hnew, hadd⟩
    · exact ⟨w, hsame ▸ ha⟩
    · obtain ⟨w', hw'⟩ := next_of_first_visit hs ht hfront ha hadm hlast hk hnew
        fun p es leg hp he hleg => hu _ _ leg p q es hleg hp (landmark?_of_key hk) he
      exact ⟨w', hadd ▸ along_append_ok.2 ⟨w, ha, hw'⟩⟩

end OneStart

end GatedMaze.Maze
