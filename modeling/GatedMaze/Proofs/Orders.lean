import GatedMaze.Proofs.Ids
import GatedMaze.Replay
import Mathlib.Data.List.Induction
import Mathlib.Data.List.Nodup
import Mathlib.Order.Bounds.Basic

/-!
# Orders of keys and what they cost

An order of keys is accepted when a walker can fetch its keys one after the other. `along` is the
walker after an order, without the notes and the list of pickups that a replay leaves as well.

* `fetch_eq_ok_iff`, `next_eq_ok_iff`: what it takes to fetch one more key, where the walker stands then and
  what is written down.
* `outcome_replay`: a replay accepts the orders that `along` accepts, at the same cost.
* `testBit_held`, `nodup_of_along`: the keys held are those of the order, none of them twice.
* `lastIn_eq`: where the agent of each quadrant stands.
* `next_of_same_origin`: walkers that hold the same keys and set out from the same place.
* `mem_totals`: the costs of the accepted orderings of some keys.
-/

namespace GatedMaze

theorem LegTable.require_ok_iff {t : LegTable} {a b : Int} {leg : Leg} :
    t.require a b = .ok leg ↔ t.get a b = .ok (some leg) := by
  unfold require
  rw [bind_ok_iff]
  constructor
  · rintro ⟨found, hg, h⟩
    cases found with
    | none => simp at h
    | some l => simp only [pure_eq_ok, Except.ok.injEq] at h; rw [hg, h]
  · intro h; exact ⟨some leg, h, rfl⟩

namespace Walker

variable {legs : LegTable} {start : Int} {homes : Option Homes}

variable {w w' : Walker} {k : Int} {o q : List Int}

/-- The walker after one more key. -/
def next (legs : LegTable) (start : Int) (homes : Option Homes) (w : Walker) (k : Int) :
    Except Fault Walker :=
  (w.fetch legs start homes k).map Prod.fst

/-- The walker after a whole order. -/
def along (legs : LegTable) (start : Int) (homes : Option Homes) (o : List Int) :
    Except Fault Walker :=
  o.foldlM (next legs start homes) (atStart start)

/-- The walker that has gone `d` moves for key `k` of a quadrant. -/
def fetched (w : Walker) (quadrant : Option Int) (k d : Int) : Walker where
  held := w.held.add k.toNat
  lastIn := match quadrant with | none => w.lastIn | some q => w.lastIn.assign q k
  last := k
  walked := w.walked + d

/-- The pickup of a key by a walker that goes along a leg to it. -/
def pickedUp (w : Walker) (start : Int) (quadrant : Option Int) (k : Int) (leg : Leg) : Pickup where
  key := k
  origin := w.originIn start quadrant
  distance := leg.distance
  gates := leg.gates.toList
  quadrant := quadrant

/-- **One more key.** A key is fetched when it is new, a set can hold it, it has a quadrant if keys
have one, and there is a leg to it whose gates are open. -/
theorem fetch_eq_ok_iff {pickup : Pickup} : w.fetch legs start homes k = .ok (w', pickup) ↔
    w.held.contains k = false ∧ (0 ≤ k ∧ k < IdSet.capacity) ∧ ∃ quadrant leg,
      quadrantOf homes k = .ok quadrant ∧
      legs.get (w.originIn start quadrant) k = .ok (some leg) ∧
      leg.gates.subset w.held = true ∧ w' = w.fetched quadrant k leg.distance ∧
      pickup = w.pickedUp start quadrant k leg := by
  unfold fetch
  cases hnew : w.held.contains k with
  | true => simp [bind_ok_iff]
  | false =>
    simp only [Bool.false_eq_true, if_false, bind_ok_iff, LegTable.require_ok_iff, true_and]
    constructor
    · rintro ⟨quadrant, hquad, leg, hleg, hf⟩
      cases hopen : leg.gates.subset w.held with
      | false => simp [hopen, bind_ok_iff] at hf
      | true =>
        simp only [hopen, Bool.not_true, Bool.false_eq_true, if_false, bind_ok_iff,
          IdSet.insert_eq_ok_iff, pure_eq_ok, Except.ok.injEq, Prod.mk.injEq] at hf
        obtain ⟨held, ⟨hr, rfl⟩, rfl, rfl⟩ := hf
        exact ⟨hr, quadrant, leg, hquad, hleg, hopen, rfl, rfl⟩
    · rintro ⟨hr, quadrant, leg, hquad, hleg, hopen, rfl, rfl⟩
      refine ⟨quadrant, hquad, leg, hleg, ?_⟩
      simp only [hopen, Bool.not_true, Bool.false_eq_true, if_false, bind_ok_iff,
        IdSet.insert_eq_ok_iff, pure_eq_ok]
      exact ⟨_, ⟨hr, rfl⟩, rfl⟩

theorem next_eq_ok_iff : next legs start homes w k = .ok w' ↔
    w.held.contains k = false ∧ (0 ≤ k ∧ k < IdSet.capacity) ∧ ∃ quadrant leg,
      quadrantOf homes k = .ok quadrant ∧
      legs.get (w.originIn start quadrant) k = .ok (some leg) ∧
      leg.gates.subset w.held = true ∧ w' = w.fetched quadrant k leg.distance := by
  unfold next
  rw [map_ok_iff]
  constructor
  · rintro ⟨⟨v, pickup⟩, hf, rfl⟩
    obtain ⟨hnew, hr, quadrant, leg, hquad, hleg, hopen, rfl, -⟩ := fetch_eq_ok_iff.1 hf
    exact ⟨hnew, hr, quadrant, leg, hquad, hleg, hopen, rfl⟩
  · rintro ⟨hnew, hr, quadrant, leg, hquad, hleg, hopen, rfl⟩
    exact ⟨(_, _), fetch_eq_ok_iff.2 ⟨hnew, hr, quadrant, leg, hquad, hleg, hopen, rfl, rfl⟩, rfl⟩

theorem along_nil : along legs start homes [] = .ok (atStart start) := rfl

theorem along_nil_ok : along legs start homes [] = .ok w ↔ w = atStart start := by
  rw [along_nil, Except.ok.injEq, eq_comm]

theorem along_append_ok : along legs start homes (q ++ [k]) = .ok w' ↔
    ∃ w, along legs start homes q = .ok w ∧ next legs start homes w k = .ok w' := by
  unfold along
  rw [List.foldlM_append, bind_ok_iff]
  simp only [List.foldlM_cons, List.foldlM_nil, bind_pure]

/-- Fetching keys with notes and pickups fetches the same keys. -/
theorem outcome_fetchAll (w : Walker) (o : List Int) :
    (fetchAll legs start homes w o).outcome.map Prod.fst =
      o.foldlM (next legs start homes) w := by
  induction o generalizing w with
  | nil => rfl
  | cons k ks ih =>
    rw [fetchAll, List.foldlM_cons, next, Noted.outcome_bind, Noted.outcome_ofExcept]
    cases w.fetch legs start homes k with
    | error e => rfl
    | ok r =>
      obtain ⟨v, pickup⟩ := r
      simp only [Except.bind, Except.map]
      rw [Noted.outcome_bind_of_ok (Noted.outcome_note _), Noted.outcome_bind]
      simp only [bind, Except.bind]
      rw [← ih v]
      cases (fetchAll legs start homes v ks).outcome <;> rfl

/-- **The keys held are those of the order**, and a set can hold each of them. -/
theorem mem_iff_of_along (h : along legs start homes o = .ok w) :
    (∀ i : Nat, w.held.mask.testBit i = true ↔ (i : Int) ∈ o) ∧
      ∀ k ∈ o, 0 ≤ k ∧ k < IdSet.capacity := by
  induction o using List.reverseRecOn generalizing w with
  | nil =>
    obtain rfl := along_nil_ok.1 h
    simp [atStart, IdSet.empty]
  | append_singleton q k ih =>
    obtain ⟨v, hv, hk⟩ := along_append_ok.1 h
    obtain ⟨hbit, hrange⟩ := ih hv
    obtain ⟨-, hr, quadrant, leg, -, -, -, rfl⟩ := next_eq_ok_iff.1 hk
    refine ⟨fun i => ?_, fun j hj => ?_⟩
    · have hi : k.toNat = i ↔ (i : Int) = k := by omega
      simp only [fetched, IdSet.testBit_add, Bool.or_eq_true, decide_eq_true_eq, hbit i, hi,
        List.mem_append, List.mem_singleton]
    · rcases List.mem_append.1 hj with hj | hj
      · exact hrange j hj
      · rw [List.mem_singleton.1 hj]; exact hr

theorem testBit_held (h : along legs start homes o = .ok w) (i : Nat) :
    w.held.mask.testBit i = true ↔ (i : Int) ∈ o := (mem_iff_of_along h).1 i

theorem range_of_along (h : along legs start homes o = .ok w) (hk : k ∈ o) :
    0 ≤ k ∧ k < IdSet.capacity := (mem_iff_of_along h).2 k hk

/-- Every key of an accepted order has a quadrant, if keys have quadrants. -/
theorem exists_quadrantOf_of_along (h : along legs start homes o = .ok w) (hk : k ∈ o) :
    ∃ quadrant, quadrantOf homes k = .ok quadrant := by
  induction o using List.reverseRecOn generalizing w with
  | nil => simp at hk
  | append_singleton q j ih =>
    obtain ⟨v, hv, hj⟩ := along_append_ok.1 h
    obtain ⟨-, -, quadrant, -, hquad, -⟩ := next_eq_ok_iff.1 hj
    rcases List.mem_append.1 hk with hk | hk
    · exact ih hv hk
    · rw [List.mem_singleton.1 hk]
      exact ⟨quadrant, hquad⟩

theorem quadrantOf_some_iff {homes : Homes} {quadrant : Option Int} :
    quadrantOf (some homes) k = .ok quadrant ↔ ∃ x, homes.of? k = some x ∧ quadrant = some x := by
  cases hx : homes.of? k <;> simp [quadrantOf, hx, eq_comm]

theorem mem_toList_held (h : along legs start homes o = .ok w) : k ∈ w.held.toList ↔ k ∈ o := by
  rw [IdSet.mem_toList, testBit_held h]
  constructor
  · rintro ⟨h0, hk⟩; rwa [Int.toNat_of_nonneg h0] at hk
  · intro hk
    have h0 := (range_of_along h hk).1
    exact ⟨h0, by rwa [Int.toNat_of_nonneg h0]⟩

theorem contains_held (h : along legs start homes o = .ok w) :
    w.held.contains k = true ↔ k ∈ o := by
  rw [IdSet.contains_eq_true_iff, ← mem_toList_held h, IdSet.mem_toList]
  constructor
  · rintro ⟨hr, hk⟩; exact ⟨hr.1, hk⟩
  · intro hk
    exact ⟨range_of_along h ((mem_toList_held h).1 (IdSet.mem_toList.2 hk)), hk.2⟩

/-- **No key of an accepted order is fetched twice.** -/
theorem nodup_of_along (h : along legs start homes o = .ok w) : o.Nodup := by
  induction o using List.reverseRecOn generalizing w with
  | nil => exact List.nodup_nil
  | append_singleton q k ih =>
    obtain ⟨v, hv, hk⟩ := along_append_ok.1 h
    obtain ⟨hnew, -⟩ := next_eq_ok_iff.1 hk
    have hkq : k ∉ q := fun hm => by simp [(contains_held hv).2 hm] at hnew
    exact List.nodup_append.2 ⟨ih hv, List.nodup_singleton k,
      fun a ha b hb => by rw [List.mem_singleton.1 hb]; exact fun e => hkq (e ▸ ha)⟩

theorem toList_held_perm (h : along legs start homes o = .ok w) : w.held.toList.Perm o :=
  (List.perm_ext_iff_of_nodup w.held.nodup_toList (nodup_of_along h)).2 fun _ => mem_toList_held h

theorem size_held (h : along legs start homes o = .ok w) : w.held.size = o.length := by
  rw [← IdSet.length_toList, (toList_held_perm h).length_eq]

/-- The walker stands at the last key of the order. -/
theorem last_of_along (h : along legs start homes o = .ok w) : w.last = o.getLast?.getD start := by
  induction o using List.reverseRecOn generalizing w with
  | nil =>
    obtain rfl := along_nil_ok.1 h
    rfl
  | append_singleton q k ih =>
    obtain ⟨v, -, hk⟩ := along_append_ok.1 h
    obtain ⟨-, -, quadrant, leg, -, -, -, rfl⟩ := next_eq_ok_iff.1 hk
    simp [fetched]

/-- A walker without quadrants keeps no last keys of quadrants. -/
theorem lastIn_of_lone (h : along legs start none o = .ok w) : w.lastIn = .empty := by
  induction o using List.reverseRecOn generalizing w with
  | nil =>
    obtain rfl := along_nil_ok.1 h
    rfl
  | append_singleton q k ih =>
    obtain ⟨v, hv, hk⟩ := along_append_ok.1 h
    obtain ⟨-, -, quadrant, leg, hquad, -, -, rfl⟩ := next_eq_ok_iff.1 hk
    cases hquad
    show v.lastIn = .empty
    exact ih hv

/-- **The last key of a quadrant** is the last one of the order that lies in it. -/
theorem lastIn_eq {homes : Homes} (h : along legs start (some homes) o = .ok w) (x : Int) :
    w.lastIn.of? x = (o.filter fun k => homes.of? k = some x).getLast? := by
  induction o using List.reverseRecOn generalizing w with
  | nil =>
    obtain rfl := along_nil_ok.1 h
    rfl
  | append_singleton q k ih =>
    obtain ⟨v, hv, hk⟩ := along_append_ok.1 h
    obtain ⟨-, -, quadrant, leg, hquad, -, -, rfl⟩ := next_eq_ok_iff.1 hk
    obtain ⟨y, hy, rfl⟩ := quadrantOf_some_iff.1 hquad
    rw [List.filter_append]
    simp only [fetched, Homes.of?_assign, ih hv]
    by_cases e : y = x
    · subst e
      simp [hy]
    · have hk : homes.of? k ≠ some x := by
        rw [hy]
        exact fun h => e (Option.some.inj h)
      simp [e, hk]

/-- The walker does not stand at a key that it has not fetched. -/
theorem ne_last_of_notMem (h : along legs start homes o = .ok w) (hk : k ∉ o) (hs : k ≠ start) :
    k ≠ w.last := by
  rw [last_of_along h]
  intro e
  cases hl : o.getLast? with
  | none =>
    rw [hl] at e
    exact hs e
  | some j =>
    rw [hl] at e
    exact hk (e ▸ List.mem_of_getLast? hl)

/-- Two accepted orders hold the same keys exactly when one rearranges the other. -/
theorem held_eq_iff_perm {o' : List Int} {w' : Walker} (h : along legs start homes o = .ok w)
    (h' : along legs start homes o' = .ok w') : w.held = w'.held ↔ o.Perm o' := by
  rw [List.perm_ext_iff_of_nodup (nodup_of_along h) (nodup_of_along h')]
  constructor
  · intro e k
    rw [← mem_toList_held h, ← mem_toList_held h', e]
  · intro e
    apply IdSet.ext_testBit
    intro i
    have := (testBit_held h i).trans ((e i).trans (testBit_held h' i).symm)
    rwa [Bool.eq_iff_iff]

/-- Walkers along the same order hold the same keys, also when they keep to different quadrants. -/
theorem held_eq_of_along {homes' : Option Homes} (h : along legs start homes o = .ok w)
    (h' : along legs start homes' o = .ok w') : w'.held = w.held := by
  apply IdSet.ext_toList
  intro k
  rw [mem_toList_held h', mem_toList_held h]

/-- **Walkers that hold the same keys and set out from the same place** fetch a key alike. -/
theorem next_of_same_origin {homes' : Option Homes} {v v' : Walker} {quadrant' : Option Int}
    (hheld : v'.held = v.held) (hquad : quadrantOf homes' k = .ok quadrant')
    (horigin : ∀ quadrant, quadrantOf homes k = .ok quadrant →
      v'.originIn start quadrant' = v.originIn start quadrant)
    (h : next legs start homes v k = .ok w) :
    ∃ w', next legs start homes' v' k = .ok w' ∧ w'.walked - v'.walked = w.walked - v.walked := by
  obtain ⟨hnew, hr, quadrant, leg, hq, hleg, hopen, rfl⟩ := next_eq_ok_iff.1 h
  rw [← horigin quadrant hq] at hleg
  rw [← hheld] at hnew hopen
  refine ⟨_, next_eq_ok_iff.2 ⟨hnew, hr, quadrant', leg, hquad, hleg, hopen, rfl⟩, ?_⟩
  simp only [fetched]
  omega

end Walker

variable {legs : LegTable} {start : Int} {homes : Option Homes} {o q : List Int} {w : Walker}
  {k : Int}

open Walker

/-- **A replay accepts what `along` accepts**, and the moves are the same. -/
theorem outcome_replay (legs : LegTable) (start : Int) (o : List Int) (homes : Option Homes) :
    (replay legs start o homes).outcome.map Replay.cost =
      (along legs start homes o).map Walker.walked := by
  unfold replay along
  rw [Noted.outcome_bind, ← outcome_fetchAll]
  cases (fetchAll legs start homes (atStart start) o).outcome <;> rfl

/-- An order is replayed at cost `c` when the walker along it makes `c` moves. -/
theorem replay_ok_iff {c : Int} : (∃ r, (replay legs start o homes).outcome = .ok r ∧ r.cost = c) ↔
    ∃ w, along legs start homes o = .ok w ∧ w.walked = c := by
  have h := outcome_replay legs start o homes
  cases hr : (replay legs start o homes).outcome <;>
    cases ha : along legs start homes o <;> simp_all [Except.map]

/-- An order that lists every one of some keys once. -/
def IsOrdering (keys o : List Int) : Prop := o.Nodup ∧ ∀ k, k ∈ o ↔ k ∈ keys

theorem IsOrdering.of_perm {keys o o' : List Int} (h : IsOrdering keys o) (hp : o'.Perm o) :
    IsOrdering keys o' :=
  ⟨hp.nodup_iff.2 h.1, fun k => hp.mem_iff.trans (h.2 k)⟩

/-- **The costs at which orderings of some keys can be walked.** -/
def totals (legs : LegTable) (start : Int) (homes : Option Homes) (keys : List Int) : Set Int :=
  {c | ∃ o, IsOrdering keys o ∧ ∃ r, (replay legs start o homes).outcome = .ok r ∧ r.cost = c}

theorem mem_totals {keys : List Int} {c : Int} : c ∈ totals legs start homes keys ↔
    ∃ o w, IsOrdering keys o ∧ along legs start homes o = .ok w ∧ w.walked = c := by
  simp only [totals, Set.mem_ofPred_eq, replay_ok_iff, exists_and_left]

end GatedMaze
