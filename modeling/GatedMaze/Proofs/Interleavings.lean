import GatedMaze.Proofs.Layers
import GatedMaze.Proofs.OwnTables
import Mathlib

/-!
# Orders that interleave

With an agent in each quadrant an order of keys is made up of one round for each agent. How the rounds are
interleaved decides which gates are open when, and nothing else: the legs, and with them the cost, are those
of the rounds.

* `outcome_fetchAll_cons`, `outcome_replay_iff`: what a replay writes down, key by key.
* `round_of_fetchAll`: the pickups of a quadrant are those of the round through its keys.
* `perm_of_filter_quadrant`: pickups that agree in each quadrant are rearranged at most.
* `exists_fetchAll_swap`: two neighbouring keys of different quadrants can be exchanged when the first is no
  gate on the way to the second.
* `cost_of_replay`, `replay_of_same_rounds`, `exists_replay_swap`: what an accepted order owes to its rounds
  alone, put together in `replay_by_quadrant`.
-/

namespace GatedMaze

open Walker Homes

/-- How far it is from a place through keys that are fetched in turn. -/
def LegTable.lengthThrough (t : LegTable) : Int → List Int → Except Fault Int
  | _, [] => .ok 0
  | a, k :: ks => do
    let leg ← t.require a k
    let rest ← t.lengthThrough k ks
    pure (leg.distance + rest)

/-- The pickups of one agent that fetches keys in turn, from a place on. -/
def LegTable.round (t : LegTable) (quadrant : Option Int) : Int → List Int → Except Fault (List Pickup)
  | _, [] => .ok []
  | a, k :: ks => do
    let leg ← t.require a k
    let rest ← t.round quadrant k ks
    pure (⟨k, a, leg.distance, leg.gates.toList, quadrant⟩ :: rest)

variable {legs : LegTable} {start : Int} {homes : Option Homes} {h : Homes} {w w' v v' : Walker}
  {a b o o' ks : List Int} {j k x : Int} {ps ps' : List Pickup} {r r' : Replay}

/-- **A round is as long as the distances on it.** -/
theorem lengthThrough_of_round {quadrant : Option Int} {i : Int}
    (hr : legs.round quadrant i ks = .ok ps) :
    legs.lengthThrough i ks = .ok (ps.map Pickup.distance).sum := by
  induction ks generalizing i ps with
  | nil =>
    rw [LegTable.round, Except.ok.injEq] at hr
    subst hr
    rfl
  | cons k ks ih =>
    rw [LegTable.round] at hr
    obtain ⟨leg, hleg, hr⟩ := bind_ok_iff.1 hr
    obtain ⟨rest, hrest, hr⟩ := bind_ok_iff.1 hr
    obtain rfl := Except.ok.inj hr
    rw [LegTable.lengthThrough, hleg]
    exact bind_ok_iff.2 ⟨leg, rfl, bind_ok_iff.2 ⟨_, ih hrest, rfl⟩⟩

namespace Walker

/-- **Fetching a key and then others.** -/
theorem outcome_fetchAll_cons :
    (fetchAll legs start homes w (k :: ks)).outcome = .ok (w', ps) ↔ ∃ v pickup rest,
      w.fetch legs start homes k = .ok (v, pickup) ∧
      (fetchAll legs start homes v ks).outcome = .ok (w', rest) ∧ ps = pickup :: rest := by
  rw [fetchAll]
  simp only [Noted.outcome_bind_ok_iff, Noted.outcome_ofExcept, Noted.outcome_note,
    Noted.outcome_pure, Prod.exists, Except.ok.injEq, Prod.mk.injEq, exists_const, true_and]
  constructor
  · rintro ⟨v, pickup, hf, u, rest, hrest, rfl, rfl⟩
    exact ⟨v, pickup, rest, hf, hrest, rfl⟩
  · rintro ⟨v, pickup, rest, hf, hrest, rfl⟩
    exact ⟨v, pickup, hf, w', rest, hrest, rfl, rfl⟩

/-- A key is picked up once, in the order of the keys. -/
theorem map_key_of_fetchAll (hf : (fetchAll legs start homes w o).outcome = .ok (w', ps)) :
    ps.map Pickup.key = o := by
  induction o generalizing w ps with
  | nil =>
    obtain ⟨-, rfl⟩ := Prod.mk.inj (Except.ok.inj hf)
    rfl
  | cons k ks ih =>
    obtain ⟨v, pickup, rest, hk, hrest, rfl⟩ := outcome_fetchAll_cons.1 hf
    obtain ⟨-, -, quadrant, leg, -, -, -, -, rfl⟩ := fetch_eq_ok_iff.1 hk
    rw [List.map_cons, ih hrest]
    rfl

/-- The moves made are the distances that are written down. -/
theorem walked_of_fetchAll (hf : (fetchAll legs start homes w o).outcome = .ok (w', ps)) :
    w'.walked = w.walked + (ps.map Pickup.distance).sum := by
  induction o generalizing w ps with
  | nil =>
    obtain ⟨rfl, rfl⟩ := Prod.mk.inj (Except.ok.inj hf)
    simp
  | cons k ks ih =>
    obtain ⟨v, pickup, rest, hk, hrest, rfl⟩ := outcome_fetchAll_cons.1 hf
    obtain ⟨-, -, quadrant, leg, -, -, -, rfl, rfl⟩ := fetch_eq_ok_iff.1 hk
    rw [List.map_cons, List.sum_cons, ih hrest]
    simp only [fetched, pickedUp]
    omega

/-- A pickup is filed under the quadrant of its key. -/
theorem quadrant_of_fetchAll (hf : (fetchAll legs start (some h) w o).outcome = .ok (w', ps)) :
    ∀ p ∈ ps, ∃ x ∈ h.inUse o, p.quadrant = some x := by
  induction o generalizing w ps with
  | nil =>
    obtain ⟨-, rfl⟩ := Prod.mk.inj (Except.ok.inj hf)
    simp
  | cons k ks ih =>
    obtain ⟨v, pickup, rest, hk, hrest, rfl⟩ := outcome_fetchAll_cons.1 hf
    obtain ⟨-, -, quadrant, leg, hquad, -, -, -, rfl⟩ := fetch_eq_ok_iff.1 hk
    obtain ⟨y, hy, rfl⟩ := quadrantOf_some_iff.1 hquad
    refine List.forall_mem_cons.2 ⟨⟨y, mem_inUse.2 ⟨k, List.mem_cons_self, hy⟩, rfl⟩, fun p hp => ?_⟩
    obtain ⟨x, hx, hpx⟩ := ih hrest p hp
    obtain ⟨j, hj, hjx⟩ := mem_inUse.1 hx
    exact ⟨x, mem_inUse.2 ⟨j, List.mem_cons_of_mem k hj, hjx⟩, hpx⟩

/-- **The pickups of a quadrant are those of the round through its keys**, which begins at the last key
fetched there before. -/
theorem round_of_fetchAll (hf : (fetchAll legs start (some h) w o).outcome = .ok (w', ps)) (x : Int) :
    legs.round (some x) ((w.lastIn.of? x).getD start) (h.keysIn o x) =
      .ok (ps.filter fun p => p.quadrant = some x) := by
  induction o generalizing w ps with
  | nil =>
    obtain ⟨-, rfl⟩ := Prod.mk.inj (Except.ok.inj hf)
    rfl
  | cons k ks ih =>
    obtain ⟨v, pickup, rest, hk, hrest, rfl⟩ := outcome_fetchAll_cons.1 hf
    obtain ⟨-, -, quadrant, leg, hquad, hleg, -, rfl, rfl⟩ := fetch_eq_ok_iff.1 hk
    obtain ⟨y, hy, rfl⟩ := quadrantOf_some_iff.1 hquad
    have hlater := ih hrest
    simp only [fetched, Homes.of?_assign] at hlater
    by_cases e : y = x
    · subst e
      rw [if_pos rfl] at hlater
      have hkeys : h.keysIn (k :: ks) y = k :: h.keysIn ks y := by simp [keysIn, hy]
      rw [hkeys, LegTable.round]
      refine bind_ok_iff.2 ⟨leg, LegTable.require_ok_iff.2 hleg, bind_ok_iff.2 ⟨_, hlater, ?_⟩⟩
      simp [pickedUp, originIn]
    · rw [if_neg e] at hlater
      have hkeys : h.keysIn (k :: ks) x = h.keysIn ks x := by simp [keysIn, hy, e]
      rw [hkeys, hlater, List.filter_cons_of_neg (by simp [pickedUp, e])]

/-- Walkers that can stand in for each other when keys have quadrants. The last key of all may differ. -/
structure StandsFor (w v : Walker) : Prop where
  held : v.held = w.held
  lastIn : ∀ x, v.lastIn.of? x = w.lastIn.of? x
  walked : v.walked = w.walked

theorem StandsFor.fetch {pickup : Pickup} (hs : StandsFor w v)
    (hk : w.fetch legs start (some h) k = .ok (w', pickup)) :
    ∃ v', v.fetch legs start (some h) k = .ok (v', pickup) ∧ StandsFor w' v' := by
  obtain ⟨hnew, hr, quadrant, leg, hquad, hleg, hopen, rfl, rfl⟩ := fetch_eq_ok_iff.1 hk
  obtain ⟨x, -, rfl⟩ := quadrantOf_some_iff.1 hquad
  have horigin : v.originIn start (some x) = w.originIn start (some x) := by
    rw [originIn, originIn, hs.lastIn]
  refine ⟨v.fetched (some x) k leg.distance,
    fetch_eq_ok_iff.2 ⟨?_, hr, some x, leg, hquad, ?_, ?_, rfl, ?_⟩, ⟨?_, fun y => ?_, ?_⟩⟩
  · rw [hs.held, hnew]
  · rw [horigin, hleg]
  · rw [hs.held, hopen]
  · rw [pickedUp, pickedUp, horigin]
  · simp only [fetched, hs.held]
  · simp only [fetched, Homes.of?_assign, hs.lastIn]
  · simp only [fetched, hs.walked]

/-- **A walker that stands for another one** picks up the same keys on the same legs. -/
theorem StandsFor.fetchAll (hs : StandsFor w v)
    (hf : (fetchAll legs start (some h) w o).outcome = .ok (w', ps)) :
    ∃ v', (Walker.fetchAll legs start (some h) v o).outcome = .ok (v', ps) ∧ StandsFor w' v' := by
  induction o generalizing w v ps with
  | nil =>
    obtain ⟨rfl, rfl⟩ := Prod.mk.inj (Except.ok.inj hf)
    exact ⟨v, rfl, hs⟩
  | cons k ks ih =>
    obtain ⟨u, pickup, rest, hk, hrest, rfl⟩ := outcome_fetchAll_cons.1 hf
    obtain ⟨u', hk', hs'⟩ := hs.fetch hk
    obtain ⟨v', hrest', hv'⟩ := ih hs' hrest
    exact ⟨v', outcome_fetchAll_cons.2 ⟨u', pickup, rest, hk', hrest', rfl⟩, hv'⟩

/-- **Two keys of different quadrants can be exchanged** when the first is no gate on the way to the
second. -/
theorem exists_fetch_swap {u : Walker} {p q : Pickup} (hj : w.fetch legs start (some h) j = .ok (u, p))
    (hk : u.fetch legs start (some h) k = .ok (w', q)) (hjk : h.of? j ≠ h.of? k) (hgate : j ∉ q.gates) :
    ∃ u' v', w.fetch legs start (some h) k = .ok (u', q) ∧ u'.fetch legs start (some h) j = .ok (v', p) ∧
      StandsFor w' v' := by
  obtain ⟨hnewj, hrj, quadrant, legj, hquadj, hlegj, hopenj, rfl, rfl⟩ := fetch_eq_ok_iff.1 hj
  obtain ⟨x, hx, rfl⟩ := quadrantOf_some_iff.1 hquadj
  obtain ⟨hnewk, hrk, quadrant, legk, hquadk, hlegk, hopenk, rfl, rfl⟩ := fetch_eq_ok_iff.1 hk
  obtain ⟨y, hy, rfl⟩ := quadrantOf_some_iff.1 hquadk
  have hxy : x ≠ y := fun e => hjk (by rw [hx, hy, e])
  -- neither agent moves when the other does
  have horigink : (w.fetched (some x) j legj.distance).originIn start (some y) =
      w.originIn start (some y) := by
    simp only [originIn, fetched, Homes.of?_assign, if_neg hxy]
  have horiginj : (w.fetched (some y) k legk.distance).originIn start (some x) =
      w.originIn start (some x) := by
    simp only [originIn, fetched, Homes.of?_assign, if_neg hxy.symm]
  have hkw : w.held.contains k = false ∧ k ≠ j := by
    rw [← Bool.not_eq_true, fetched, IdSet.contains_add_iff hrj, not_or, Bool.not_eq_true] at hnewk
    exact hnewk
  refine ⟨w.fetched (some y) k legk.distance, _,
    fetch_eq_ok_iff.2 ⟨hkw.1, hrk, some y, legk, hquadk, ?_, ?_, rfl, ?_⟩,
    fetch_eq_ok_iff.2 ⟨?_, hrj, some x, legj, hquadj, ?_, ?_, rfl, ?_⟩, ⟨?_, fun z => ?_, ?_⟩⟩
  · rw [← horigink, hlegk]
  · exact IdSet.subset_of_subset_add hrj.1 hopenk hgate
  · rw [pickedUp, pickedUp, horigink]
  · rw [← Bool.not_eq_true, fetched, IdSet.contains_add_iff hrk, not_or, Bool.not_eq_true]
    exact ⟨hnewj, hkw.2.symm⟩
  · rw [horiginj, hlegj]
  · exact IdSet.subset_add hopenj _
  · rw [pickedUp, pickedUp, horiginj]
  · exact IdSet.add_comm _ _ _
  · simp only [fetched, Homes.of?_assign]
    by_cases hz : x = z
    · have hyz : y ≠ z := fun e => hxy (hz.trans e.symm)
      rw [if_pos hz, if_neg hyz, if_pos hz]
    · rw [if_neg hz, if_neg hz]
  · simp only [fetched]
    omega

/-- **Neighbours in an order can be exchanged** under the same condition. -/
theorem exists_fetchAll_swap
    (hf : (fetchAll legs start (some h) w (a ++ j :: k :: b)).outcome = .ok (w', ps))
    (hjk : h.of? j ≠ h.of? k) (hgate : ∀ p ∈ ps, p.key = k → j ∉ p.gates) : ∃ v' ps',
      (fetchAll legs start (some h) w (a ++ k :: j :: b)).outcome = .ok (v', ps') ∧ StandsFor w' v' := by
  induction a generalizing w ps with
  | nil =>
    obtain ⟨u, p, rest, hj, hrest, rfl⟩ := outcome_fetchAll_cons.1 hf
    obtain ⟨u₂, q, last, hk, hlast, rfl⟩ := outcome_fetchAll_cons.1 hrest
    have hq : q.key = k := by
      obtain ⟨-, -, quadrant, leg, -, -, -, -, rfl⟩ := fetch_eq_ok_iff.1 hk
      rfl
    obtain ⟨v, v₂, hk', hj', hs⟩ := exists_fetch_swap hj hk hjk (hgate q (by simp) hq)
    obtain ⟨v', hlast', hs'⟩ := hs.fetchAll hlast
    exact ⟨v', q :: p :: last, outcome_fetchAll_cons.2 ⟨v, q, _, hk',
      outcome_fetchAll_cons.2 ⟨v₂, p, last, hj', hlast', rfl⟩, rfl⟩, hs'⟩
  | cons i a ih =>
    obtain ⟨u, p, rest, hi, hrest, rfl⟩ := outcome_fetchAll_cons.1 hf
    obtain ⟨v', ps', hf', hs⟩ := ih hrest fun q hq => hgate q (List.mem_cons_of_mem p hq)
    exact ⟨v', p :: ps', outcome_fetchAll_cons.2 ⟨u, p, ps', hi, hf', rfl⟩, hs⟩

end Walker

theorem outcome_replay_iff : (replay legs start o homes).outcome = .ok r ↔
    ∃ w ps, (fetchAll legs start homes (atStart start) o).outcome = .ok (w, ps) ∧
      r = ⟨w.walked, ps, w.held.toList⟩ := by
  rw [replay]
  simp only [Noted.outcome_bind_ok_iff, Noted.outcome_pure, Prod.exists, Except.ok.injEq]
  constructor
  · rintro ⟨w, ps, hf, rfl⟩
    exact ⟨w, ps, hf, rfl⟩
  · rintro ⟨w, ps, hf, rfl⟩
    exact ⟨w, ps, hf, rfl⟩

/-- **An accepted order picks up its keys in turn**, and costs as much as their distances add up to. -/
theorem pickups_of_replay (hr : (replay legs start o homes).outcome = .ok r) :
    r.pickups.map Pickup.key = o ∧ r.cost = (r.pickups.map Pickup.distance).sum := by
  obtain ⟨w, ps, hf, rfl⟩ := outcome_replay_iff.1 hr
  refine ⟨map_key_of_fetchAll hf, ?_⟩
  show w.walked = _
  simpa [atStart] using walked_of_fetchAll hf

/-- The distances of pickups can be added up quadrant by quadrant. -/
theorem sum_filter_quadrant {s : Finset Int} (hs : ∀ p ∈ ps, ∃ x ∈ s, p.quadrant = some x) :
    ∑ x ∈ s, ((ps.filter fun p => p.quadrant = some x).map Pickup.distance).sum =
      (ps.map Pickup.distance).sum := by
  induction ps with
  | nil => simp
  | cons p ps ih =>
    obtain ⟨⟨y, hy, hp⟩, hs⟩ := List.forall_mem_cons.1 hs
    have hsplit : ∀ x, (((p :: ps).filter fun p => p.quadrant = some x).map Pickup.distance).sum =
        (if y = x then p.distance else 0) +
          ((ps.filter fun p => p.quadrant = some x).map Pickup.distance).sum := by
      intro x
      by_cases e : y = x <;> simp [hp, e]
    rw [Finset.sum_congr rfl fun x _ => hsplit x, Finset.sum_add_distrib, Finset.sum_ite_eq, if_pos hy,
      ih hs, List.map_cons, List.sum_cons]

/-- **Pickups that agree in each quadrant are rearranged at most.** -/
theorem perm_of_filter_quadrant (hps : ∀ p ∈ ps, ∃ x, p.quadrant = some x)
    (hps' : ∀ p ∈ ps', ∃ x, p.quadrant = some x)
    (hsame : ∀ x, (ps'.filter fun p => p.quadrant = some x) = ps.filter fun p => p.quadrant = some x) :
    ps'.Perm ps := by
  refine List.perm_iff_count.2 fun p => ?_
  cases hp : p.quadrant with
  | none =>
    have hnone : ∀ {qs : List Pickup}, (∀ q ∈ qs, ∃ x, q.quadrant = some x) → qs.count p = 0 := by
      intro qs hqs
      refine List.count_eq_zero.2 fun hmem => ?_
      obtain ⟨x, hx⟩ := hqs p hmem
      rw [hp] at hx
      cases hx
    rw [hnone hps, hnone hps']
  | some x =>
    have hcount : ∀ qs : List Pickup, (qs.filter fun q => q.quadrant = some x).count p = qs.count p :=
      fun qs => List.count_filter (by simp [hp])
    rw [← hcount ps, ← hcount ps', hsame]

/-- **An accepted order costs what the rounds of its quadrants are long.** -/
theorem cost_of_replay (hr : (replay legs start o (some h)).outcome = .ok r) : ∃ d : Int → Int,
    (∀ x ∈ h.inUse o, legs.lengthThrough start (h.keysIn o x) = .ok (d x)) ∧
      r.cost = ∑ x ∈ h.inUse o, d x := by
  obtain ⟨-, hcost⟩ := pickups_of_replay hr
  obtain ⟨w, ps, hf, rfl⟩ := outcome_replay_iff.1 hr
  refine ⟨_, fun x _ => lengthThrough_of_round (round_of_fetchAll hf x), ?_⟩
  rw [sum_filter_quadrant (quadrant_of_fetchAll hf), hcost]

/-- **Accepted orders with the same rounds** are walked on the same legs. -/
theorem replay_of_same_rounds (hr : (replay legs start o (some h)).outcome = .ok r)
    (hr' : (replay legs start o' (some h)).outcome = .ok r')
    (hsame : ∀ x, h.keysIn o' x = h.keysIn o x) :
    r'.cost = r.cost ∧ r'.pickups.Perm r.pickups ∧ r'.collected = r.collected := by
  obtain ⟨hkeys, hcost⟩ := pickups_of_replay hr
  obtain ⟨hkeys', hcost'⟩ := pickups_of_replay hr'
  obtain ⟨w, ps, hf, rfl⟩ := outcome_replay_iff.1 hr
  obtain ⟨w', ps', hf', rfl⟩ := outcome_replay_iff.1 hr'
  have hfilter : ∀ x, (ps'.filter fun p => p.quadrant = some x) =
      ps.filter fun p => p.quadrant = some x := by
    intro x
    have hround := round_of_fetchAll hf' x
    rw [hsame, round_of_fetchAll hf x] at hround
    exact (Except.ok.inj hround).symm
  have hperm : ps'.Perm ps :=
    perm_of_filter_quadrant (fun p hp => (quadrant_of_fetchAll hf p hp).imp fun x hx => hx.2)
      (fun p hp => (quadrant_of_fetchAll hf' p hp).imp fun x hx => hx.2) hfilter
  refine ⟨?_, hperm, ?_⟩
  · rw [hcost', hcost, (hperm.map Pickup.distance).sum_eq]
  · -- the same keys are held in the end, and a set lists them in one way
    have hw : along legs start (some h) o = .ok w := by
      rw [along, ← outcome_fetchAll, hf]
      rfl
    have hw' : along legs start (some h) o' = .ok w' := by
      rw [along, ← outcome_fetchAll, hf']
      rfl
    have horders : o'.Perm o := by
      have := hperm.map Pickup.key
      rwa [hkeys', hkeys] at this
    show w'.held.toList = w.held.toList
    rw [(held_eq_iff_perm hw' hw).2 horders]

/-- **Neighbours of different quadrants can be exchanged** when the first is no gate on the way to the
second. -/
theorem exists_replay_swap (hr : (replay legs start (a ++ j :: k :: b) (some h)).outcome = .ok r)
    (hjk : h.of? j ≠ h.of? k) (hgate : ∀ p ∈ r.pickups, p.key = k → j ∉ p.gates) :
    ∃ r', (replay legs start (a ++ k :: j :: b) (some h)).outcome = .ok r' ∧ r'.cost = r.cost := by
  obtain ⟨w, ps, hf, rfl⟩ := outcome_replay_iff.1 hr
  obtain ⟨v, ps', hf', hs⟩ := exists_fetchAll_swap hf hjk hgate
  exact ⟨_, outcome_replay_iff.2 ⟨v, ps', hf', rfl⟩, hs.walked⟩

/-- **What an accepted order owes to its rounds alone.** It costs what the rounds of its quadrants are long.
Another accepted order with the same rounds costs as much, is walked on the same legs and collects the same
keys. And two neighbours in different quadrants can be exchanged at no cost when the first is not among the
gates on the way to the second. -/
theorem replay_by_quadrant (hr : (replay legs start o (some h)).outcome = .ok r) :
    (∃ d : Int → Int, (∀ x ∈ h.inUse o, legs.lengthThrough start (h.keysIn o x) = .ok (d x)) ∧
      r.cost = ∑ x ∈ h.inUse o, d x) ∧
    (∀ o' r', (replay legs start o' (some h)).outcome = .ok r' →
      (∀ x, h.keysIn o' x = h.keysIn o x) →
      r'.cost = r.cost ∧ r'.pickups.Perm r.pickups ∧ r'.collected = r.collected) ∧
    ∀ a j k b, o = a ++ j :: k :: b → h.of? j ≠ h.of? k →
      (∀ p ∈ r.pickups, p.key = k → j ∉ p.gates) →
      ∃ r', (replay legs start (a ++ k :: j :: b) (some h)).outcome = .ok r' ∧ r'.cost = r.cost := by
  refine ⟨cost_of_replay hr, fun o' r' hr' hsame => replay_of_same_rounds hr hr' hsame, ?_⟩
  rintro a j k b rfl hjk hgate
  exact exists_replay_swap hr hjk hgate

theorem replay_by_quadrant_gatedArm :
    let h : Homes := ⟨[(0, 0), (1, 0), (2, 1)]⟩
    ∃ r r', (replay gatedArm 3 [0, 1, 2] (some h)).outcome = .ok r ∧
      gatedArm.lengthThrough 3 (h.keysIn [0, 1, 2] 0) = .ok 3 ∧
      gatedArm.lengthThrough 3 (h.keysIn [0, 1, 2] 1) = .ok 4 ∧ r.cost = 7 ∧
      (replay gatedArm 3 [0, 2, 1] (some h)).outcome = .ok r' ∧ r'.cost = r.cost ∧
      r'.pickups.Perm r.pickups ∧ r'.collected = r.collected := by
  intro h
  have hr : (replay gatedArm 3 [0, 1, 2] (some h)).outcome = .ok ⟨7, [⟨0, 3, 2, [], some 0⟩,
      ⟨1, 0, 1, [], some 0⟩, ⟨2, 3, 4, [0], some 1⟩], [0, 1, 2]⟩ := by decide +kernel
  obtain ⟨-, hsame, hswap⟩ := replay_by_quadrant hr
  obtain ⟨r', hr', hcost⟩ := hswap [0] 1 2 [] rfl (by decide) (by decide)
  have hrounds : ∀ x, h.keysIn [0, 2, 1] x = h.keysIn [0, 1, 2] x := by
    intro x
    by_cases h0 : x = 0
    · subst h0
      decide
    · by_cases h1 : x = 1
      · subst h1
        decide
      · simp [keysIn, h, Homes.of?, List.lookup, Ne.symm h0, Ne.symm h1]
  exact ⟨_, r', hr, by decide +kernel, by decide +kernel, rfl, hr', hcost, (hsame _ r' hr' hrounds).2⟩

end GatedMaze
