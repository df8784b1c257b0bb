import GatedMaze.Proofs.Collecting
import GatedMaze.Proofs.Regions

/-!
# Accepted orders are real walks

What a replay accepts can be walked in the maze, with exactly as many moves. One agent walks from
key to key. Several agents stand one on each start and take turns; an agent fetches the keys of the
region of its start, so the agent of a quadrant is found where its last key lies.

* `admits_leg`: a leg whose gates are open is a walk that may be made.
* `Posted.setsOut`, `Posted.step`: where the agents stand, before and after a key is fetched.
* `replay_is_walk`: accepted orders are walks of one agent and tours of several.
-/

namespace GatedMaze

open Walker

/-- One move of one of several agents, which goes by the start that it stood on at first. -/
structure Turn where
  agent : Coord
  move : Move
  deriving DecidableEq, Repr

namespace Turn

/-- Where the agents stand after a turn. -/
def after (pos : Coord → Coord) (x : Turn) : Coord → Coord :=
  Function.update pos x.agent ((pos x.agent).step x.move)

/-- Where the agents stand after some turns. -/
def positions (pos : Coord → Coord) (xs : List Turn) : Coord → Coord := xs.foldl after pos

/-- The places that agents enter in turn. -/
def entered (pos : Coord → Coord) : List Turn → List Coord
  | [] => []
  | x :: xs => (pos x.agent).step x.move :: entered (after pos x) xs

variable {pos : Coord → Coord} {xs ys : List Turn} {a : Coord} {ds : List Move}

theorem positions_append : positions pos (xs ++ ys) = positions (positions pos xs) ys :=
  List.foldl_append

theorem entered_append :
    entered pos (xs ++ ys) = entered pos xs ++ entered (positions pos xs) ys := by
  induction xs generalizing pos with
  | nil => rfl
  | cons x xs ih => simp only [List.cons_append, entered, ih]; rfl

/-- The turns in which one agent makes some moves. -/
def walk (a : Coord) (ds : List Move) : List Turn := ds.map (Turn.mk a)

theorem entered_walk : entered pos (walk a ds) = (pos a).trail ds := by
  induction ds generalizing pos with
  | nil => rfl
  | cons d ds ih =>
    have h : entered (after pos ⟨a, d⟩) (walk a ds) = _ := ih
    rw [after, Function.update_self] at h
    exact congrArg _ h

theorem positions_walk :
    positions pos (walk a ds) = Function.update pos a ((pos a).follow ds) := by
  induction ds generalizing pos with
  | nil => simp [walk, positions]
  | cons d ds ih =>
    have h : positions (after pos ⟨a, d⟩) (walk a ds) = _ := ih
    rw [after, Function.update_self, Function.update_idem] at h
    exact h

end Turn

namespace Maze

variable {m : Maze} {t : LegTable} {p q s : Coord} {leg : Leg} {seen : List Coord} {k x : Int}
  {ds : List Move}

theorem mem_trail_follow (hne : p ≠ p.follow ds) : p.follow ds ∈ p.trail ds := by
  cases ds using List.reverseRecOn with
  | nil => exact absurd rfl hne
  | append_singleton ds d =>
    rw [Coord.trail_append, Coord.follow_append]
    exact List.mem_append_right _ (by simp [Coord.trail, Coord.follow])

/-- **A leg whose gates are open is a walk that may be made** by who has seen the keys held, and it
enters its last place. -/
theorem admits_leg {held : IdSet} (hl : m.LegBetween p q leg) (hpq : p ≠ q)
    (hopen : leg.gates.subset held = true) :
    ∃ es, m.Walk p es q ∧ (es.length : Int) = leg.distance ∧ q ∈ p.trail es ∧
      ∀ seen, (∀ g : Letter, held.mask.testBit g = true → ∃ z ∈ seen, m.at? z = some (.key g)) →
        m.Admits seen (p.trail es) := by
  obtain ⟨es, ⟨hw, -⟩, hd, hg⟩ := hl
  obtain rfl := hw.ends
  refine ⟨es, hw, hd, mem_trail_follow hpq, fun seen hkeys => ?_⟩
  refine admits_of_gates hw.opens fun y hy g hyg => hkeys g ?_
  have hi : g.val ∈ leg.gates.toNats := by
    rw [IdSet.mem_toNats, ← hg, testBit_gatesOn]
    exact ⟨y, hy, g, hyg, rfl⟩
  exact IdSet.mem_toNats.1 (IdSet.subset_iff.1 hopen _ hi)

/-- The keys held by a walker were seen when the places of its order were. -/
theorem exists_key_of_held {homes : Option Homes} {o : List Int} {w : Walker} {ps : List Coord}
    (ha : along t m.startId homes o = .ok w) (ho : (m.startId : Int) ∉ o)
    (hps : List.Forall₂ (fun k p => m.landmark? p = some k) o ps) (hsub : ps ⊆ seen) (g : Letter)
    (hg : w.held.mask.testBit g = true) : ∃ z ∈ seen, m.at? z = some (.key g) := by
  have hmem := (testBit_held ha g).1 hg
  obtain ⟨hlen, hget⟩ := List.forall₂_iff_get.1 hps
  obtain ⟨i, hi, he⟩ := List.getElem_of_mem hmem
  have hi' : i < ps.length := hlen ▸ hi
  have hl : m.landmark? ps[i] = some (g.val : Int) := he ▸ hget i hi hi'
  obtain ⟨l, hkey, hlg⟩ := exists_key_of_landmark? hl fun e => ho (e ▸ hmem)
  obtain rfl : l = g := Fin.ext (by omega)
  exact ⟨_, hsub (List.getElem_mem hi'), hkey⟩

/-- **An accepted order is a walk of one agent.** -/
theorem exists_walk_of_along (ht : m.legs = .ok t) (hs : ∀ p, m.at? p = some .start ↔ p = s)
    {o : List Int} {w : Walker} (ha : along t m.startId none o = .ok w) : ∃ ds ps,
      (ds.length : Int) = w.walked ∧ m.Walk s ds (s.follow ds) ∧
      m.landmark? (s.follow ds) = some w.last ∧
      List.Forall₂ (fun k p => m.landmark? p = some k) o ps ∧ ps.Sublist (s.trail ds) ∧
      s.follow ds = ps.getLast?.getD s ∧ ((m.startId : Int) ∉ o → m.Admits [s] (s.trail ds)) := by
  induction o using List.reverseRecOn generalizing w with
  | nil =>
    obtain rfl := along_nil_ok.1 ha
    exact ⟨[], [], rfl, walk_nil_iff.2 rfl, landmark?_of_start ((hs s).2 rfl), .nil,
      List.Sublist.refl _, rfl, fun _ => trivial⟩
  | append_singleton o k ih =>
    obtain ⟨v, hv, hk⟩ := along_append_ok.1 ha
    obtain ⟨ds, ps, hlen, hw, hlast, hps, hsub, hend, hadm⟩ := ih hv
    obtain ⟨-, -, quadrant, leg, hquad, hleg, hopen, rfl⟩ := next_eq_ok_iff.1 hk
    cases hquad
    -- the leg sets out from where the walk has ended
    obtain ⟨hne, p, q, hp, hq, hl⟩ := (legs_ok ht).1.sound _ _ leg hleg
    obtain rfl := landmark_unique_of_one_start hs hlast hp
    have hpq : s.follow ds ≠ q := fun e => hne (Option.some.inj (hp.symm.trans (e ▸ hq)))
    obtain ⟨es, he, hd, hmem, hopened⟩ := admits_leg hl hpq hopen
    have hq' : s.follow (ds ++ es) = q := by rw [Coord.follow_append, he.ends]
    refine ⟨ds ++ es, ps ++ [q], ?_⟩
    rw [Coord.trail_append, hq']
    refine ⟨?_, hw.append he, hq, ?_, ?_, ?_, fun ho => ?_⟩
    · rw [List.length_append]
      simp only [fetched]
      omega
    · exact List.rel_append hps (.cons hq .nil)
    · exact hsub.append (List.singleton_sublist.2 hmem)
    · simp
    · have ho : (m.startId : Int) ∉ o := fun h => ho (List.mem_append_left _ h)
      refine admits_append_iff.2 ⟨hadm ho, hopened _ fun g hg => ?_⟩
      exact exists_key_of_held hv ho hps (List.Subset.trans hsub.subset (by simp)) g hg

/-- Where the agents stand when `lastIn` tells the last key of each quadrant: each in the region of
its start, and one of them at each last key; the others have not set out. -/
structure Posted (m : Maze) (homes lastIn : Homes) (pos : Coord → Coord) : Prop where
  home : ∀ x j, lastIn.of? x = some j → homes.of? j = some x
  joined : ∀ a ∈ m.starts, m.Joined a (pos a)
  agent : ∀ x j, lastIn.of? x = some j → ∃ a ∈ m.starts, m.landmark? (pos a) = some j
  atStart : ∀ a ∈ m.starts, pos a = a ∨ ∃ x j, lastIn.of? x = some j ∧ m.landmark? (pos a) = some j

variable {homes lastIn : Homes} {pos : Coord → Coord} {a : Coord} {n : Int}

theorem posted_start : m.Posted homes .empty id where
  home := by simp [Homes.of?_empty]
  joined := fun a _ => ⟨[], walk_nil_iff.2 rfl⟩
  agent := by simp [Homes.of?_empty]
  atStart := fun a _ => .inl rfl

/-- **The agent of a quadrant stands where the next leg sets out**, at the last key of the quadrant or
at a start. -/
theorem Posted.setsOut (hpost : m.Posted homes lastIn pos) (ht : m.legs = .ok t)
    (hh : assignQuadrants m.keyIds t n = .ok homes) (hk : homes.of? k = some x)
    (hp : m.landmark? p = some ((lastIn.of? x).getD m.startId)) (hq : m.landmark? q = some k)
    (hj : m.Joined p q) : ∃ a ∈ m.starts, pos a = p := by
  cases hl : lastIn.of? x with
  | some j =>
    rw [hl] at hp
    obtain ⟨a, ha, hpos⟩ := hpost.agent x j hl
    have hj := mem_keyIds_of_quadrant ht hh (hpost.home x j hl)
    exact ⟨a, ha, landmark_unique hpos hp (ne_startId_of_mem hj)⟩
  | none =>
    rw [hl] at hp
    have hstart := mem_starts.2 (landmark?_eq_start_iff.1 hp)
    refine ⟨p, hstart, (hpost.atStart p hstart).resolve_right ?_⟩
    -- an agent that has set out stands at a last key, which would be one of the quadrant
    rintro ⟨y, j, hy, hpos⟩
    have hsame : m.SameRegion j k :=
      ⟨pos p, q, hpos, hq, ((hpost.joined p hstart).symm (isOpen_of_landmark? hp)).trans hj⟩
    have hky := (quadrant_eq_iff ht hh (hpost.home y j hy) (mem_keyIds_of_quadrant ht hh hk)).2 hsame
    rw [hk, Option.some.injEq] at hky
    subst hky
    rw [hl] at hy
    cases hy

/-- An agent at the last key of a quadrant fetches the keys of this quadrant, and no other keys. -/
theorem Posted.agent_iff (hpost : m.Posted homes lastIn pos) (ht : m.legs = .ok t)
    (hh : assignQuadrants m.keyIds t n = .ok homes) (hk : homes.of? k = some x)
    (hq : m.landmark? q = some k) (ha : a ∈ m.starts) (hj : m.Joined (pos a) q) {b : Coord}
    {y j : Int} (hb : b ∈ m.starts) (hy : lastIn.of? y = some j)
    (hpos : m.landmark? (pos b) = some j) : y = x ↔ b = a := by
  have hkey := mem_keyIds_of_quadrant ht hh hk
  have hlast := mem_keyIds_of_quadrant ht hh (hpost.home y j hy)
  have hiff := quadrant_eq_iff ht hh (hpost.home y j hy) hkey
  constructor
  · rintro rfl
    obtain ⟨p, q', hp, hq', hpq⟩ := hiff.1 hk
    obtain rfl := landmark_unique hp hpos (ne_startId_of_mem hlast)
    obtain rfl := landmark_unique hq' hq (ne_startId_of_mem hkey)
    -- a walk joins the two starts, so they are one
    have hopen : m.IsOpen a := isOpen_of_landmark? (landmark?_of_start (mem_starts.1 ha))
    have hba : m.Joined b a :=
      ((hpost.joined b hb).trans hpq).trans (((hpost.joined a ha).trans hj).symm hopen)
    exact ((legs_ok ht).2.2 b (mem_starts.1 hb) a (mem_starts.1 ha) hba).symm
  · rintro rfl
    have hsame := hiff.2 ⟨pos b, q, hpos, hq, hj⟩
    rw [hk, Option.some.injEq] at hsame
    exact hsame.symm

/-- **Fetching a key** moves the agent of its quadrant there, and no other agent. -/
theorem Posted.step (hpost : m.Posted homes lastIn pos) (ht : m.legs = .ok t)
    (hh : assignQuadrants m.keyIds t n = .ok homes) (hk : homes.of? k = some x)
    (hq : m.landmark? q = some k) (ha : a ∈ m.starts) (hj : m.Joined (pos a) q) :
    m.Posted homes (lastIn.assign x k) (Function.update pos a q) := by
  have haq : m.Joined a q := (hpost.joined a ha).trans hj
  have hagent : ∀ b ∈ m.starts, ∀ y j, lastIn.of? y = some j → m.landmark? (pos b) = some j →
      (y = x ↔ b = a) := fun b hb y j hy hpos => hpost.agent_iff ht hh hk hq ha hj hb hy hpos
  refine ⟨fun y j hy => ?_, fun b hb => ?_, fun y j hy => ?_, fun b hb => ?_⟩
  · rw [Homes.of?_assign] at hy
    split at hy
    · next e =>
      obtain rfl := Option.some.inj hy
      rw [← e, hk]
    · exact hpost.home y j hy
  · by_cases e : b = a
    · subst e; rw [Function.update_self]; exact haq
    · rw [Function.update_of_ne e]; exact hpost.joined b hb
  · rw [Homes.of?_assign] at hy
    split at hy
    · obtain rfl := Option.some.inj hy
      exact ⟨a, ha, by rw [Function.update_self]; exact hq⟩
    · next hne =>
      obtain ⟨b, hb, hpos⟩ := hpost.agent y j hy
      have e : b ≠ a := fun e => hne ((hagent b hb y j hy hpos).2 e).symm
      exact ⟨b, hb, by rw [Function.update_of_ne e]; exact hpos⟩
  · by_cases e : b = a
    · subst e
      exact .inr ⟨x, k, by rw [Homes.of?_assign, if_pos rfl], by rw [Function.update_self]; exact hq⟩
    · rw [Function.update_of_ne e]
      refine (hpost.atStart b hb).imp_right ?_
      rintro ⟨y, j, hy, hpos⟩
      have hne : x ≠ y := fun hxy => e ((hagent b hb y j hy hpos).1 hxy.symm)
      exact ⟨y, j, by rw [Homes.of?_assign, if_neg hne]; exact hy, hpos⟩

/-- **An accepted order is a tour of several agents.** -/
theorem exists_tour_of_along (ht : m.legs = .ok t) (hh : assignQuadrants m.keyIds t n = .ok homes)
    {o : List Int} {w : Walker} (ha : along t m.startId (some homes) o = .ok w) :
    ∃ (xs : List Turn) (ps : List Coord), (xs.length : Int) = w.walked ∧
      (∀ x ∈ xs, x.agent ∈ m.starts) ∧ m.Admits m.starts (Turn.entered id xs) ∧
      List.Forall₂ (fun k p => m.landmark? p = some k) o ps ∧ ps.Sublist (Turn.entered id xs) ∧
      m.Posted homes w.lastIn (Turn.positions id xs) := by
  induction o using List.reverseRecOn generalizing w with
  | nil =>
    obtain rfl := along_nil_ok.1 ha
    exact ⟨[], [], rfl, by simp, trivial, .nil, List.Sublist.refl _, posted_start⟩
  | append_singleton o k ih =>
    obtain ⟨v, hv, hnext⟩ := along_append_ok.1 ha
    obtain ⟨xs, ps, hlen, hstarts, hadm, hps, hsub, hpost⟩ := ih hv
    obtain ⟨-, -, quadrant, leg, hquad, hleg, hopen, rfl⟩ := next_eq_ok_iff.1 hnext
    obtain ⟨x, hk, rfl⟩ := quadrantOf_some_iff.1 hquad
    obtain ⟨hne, p, q, hp, hq, hl⟩ := (legs_ok ht).1.sound _ _ leg hleg
    have hpq : p ≠ q := fun e => hne (Option.some.inj (hp.symm.trans (e ▸ hq)))
    obtain ⟨es, he, hd, hmem, hopened⟩ := admits_leg hl hpq hopen
    obtain ⟨a, hag, rfl⟩ := hpost.setsOut ht hh hk hp hq ⟨es, he⟩
    refine ⟨xs ++ Turn.walk a es, ps ++ [q], ?_⟩
    rw [Turn.entered_append, Turn.entered_walk, Turn.positions_append, Turn.positions_walk, he.ends]
    refine ⟨?_, ?_, ?_, ?_, ?_, ?_⟩
    · simp only [fetched, List.length_append, Turn.walk, List.length_map]
      omega
    · intro y hy
      rcases List.mem_append.1 hy with hy | hy
      · exact hstarts y hy
      · obtain ⟨d, -, rfl⟩ := List.mem_map.1 hy
        exact hag
    · have ho : (m.startId : Int) ∉ o := fun hmem => by
        obtain ⟨quadrant, hquad⟩ := exists_quadrantOf_of_along hv hmem
        obtain ⟨y, hy, -⟩ := quadrantOf_some_iff.1 hquad
        exact startId_notMem_keyIds (mem_keyIds_of_quadrant ht hh hy)
      refine admits_append_iff.2 ⟨hadm, hopened _ fun g hg => ?_⟩
      exact exists_key_of_held hv ho hps (List.Subset.trans hsub.subset (by simp)) g hg
    · exact List.rel_append hps (.cons hq .nil)
    · exact hsub.append (List.singleton_sublist.2 hmem)
    · exact hpost.step ht hh hk hq hag ⟨es, he⟩

end Maze

open Maze

variable {m : Maze} {t : LegTable} {s : Coord} {homes : Homes} {n : Int} {o : List Int} {r : Replay}

/-- **An accepted order of one agent** is walked with exactly the moves stated. -/
theorem exists_walk_of_replay (ht : m.legs = .ok t) (hs : m.starts = [s])
    (hr : (replay t m.startId o none).outcome = .ok r) : ∃ ds ps,
      (ds.length : Int) = r.cost ∧ (∀ x ∈ s.trail ds, m.IsOpen x) ∧
      List.Forall₂ (fun k p => m.landmark? p = some k) o ps ∧ ps.Sublist (s.trail ds) ∧
      s.follow ds = ps.getLast?.getD s ∧
      ((m.startId : Int) ∉ o → m.Admits [s] (s.trail ds)) := by
  obtain ⟨w, hw, hcost⟩ := replay_ok_iff.1 ⟨r, hr, rfl⟩
  obtain ⟨ds, ps, hlen, hwalk, -, hps, hsub, hend, hadm⟩ :=
    exists_walk_of_along ht (start_iff_of_starts hs) hw
  exact ⟨ds, ps, by omega, hwalk.opens, hps, hsub, hend, hadm⟩

/-- **An accepted order of several agents** is a tour of exactly the moves stated. -/
theorem exists_tour_of_replay (ht : m.legs = .ok t) (hh : assignQuadrants m.keyIds t n = .ok homes)
    (hr : (replay t m.startId o (some homes)).outcome = .ok r) :
    ∃ (xs : List Turn) (ps : List Coord), (xs.length : Int) = r.cost ∧
      (∀ x ∈ xs, x.agent ∈ m.starts) ∧ m.Admits m.starts (Turn.entered id xs) ∧
      List.Forall₂ (fun k p => m.landmark? p = some k) o ps ∧
      ps.Sublist (Turn.entered id xs) := by
  obtain ⟨w, hw, hcost⟩ := replay_ok_iff.1 ⟨r, hr, rfl⟩
  obtain ⟨xs, ps, hlen, hstarts, hadm, hps, hsub, -⟩ := exists_tour_of_along ht hh hw
  exact ⟨xs, ps, by omega, hstarts, hadm, hps, hsub⟩

/-- **Accepted orders are real walks.** For one start there is a walk of exactly the moves stated that
enters the places of the order in turn, ends on the last one and keeps to the gates; only an order
that names the start as a key may break into gates of its letter. For several agents there is such a
tour of agents that stand one on each start, in which a gate is open once any of them has been at
its key. -/
theorem replay_is_walk (ht : m.legs = .ok t) (o : List Int) :
    (∀ s r, m.starts = [s] → (replay t m.startId o none).outcome = .ok r → ∃ ds ps,
      (ds.length : Int) = r.cost ∧ (∀ x ∈ s.trail ds, m.IsOpen x) ∧
      List.Forall₂ (fun k p => m.landmark? p = some k) o ps ∧ ps.Sublist (s.trail ds) ∧
      s.follow ds = ps.getLast?.getD s ∧
      ((m.startId : Int) ∉ o → m.Admits [s] (s.trail ds))) ∧
    (∀ n homes r, assignQuadrants m.keyIds t n = .ok homes →
      (replay t m.startId o (some homes)).outcome = .ok r →
      ∃ (xs : List Turn) (ps : List Coord), (xs.length : Int) = r.cost ∧
        (∀ x ∈ xs, x.agent ∈ m.starts) ∧ m.Admits m.starts (Turn.entered id xs) ∧
        List.Forall₂ (fun k p => m.landmark? p = some k) o ps ∧
        ps.Sublist (Turn.entered id xs)) := by
  constructor
  · intro s r hs hr
    exact exists_walk_of_replay ht hs hr
  · intro n homes r hh hr
    exact exists_tour_of_replay ht hh hr

theorem replay_is_walk_twoCells :
    (∃ m, Maze.ofText "b.A.@.a" = .ok m ∧ ∃ ds, (ds.length : Int) = 8 ∧
      m.Admits [⟨0, 4⟩] ((⟨0, 4⟩ : Coord).trail ds)) ∧
    ∃ m, Maze.ofText "a@#@A.b" = .ok m ∧ ∃ xs, xs.length = (4 : Int) ∧
      (∀ x ∈ xs, x.agent ∈ m.starts) ∧ m.Admits m.starts (Turn.entered id xs) := by
  constructor
  · have h : (do
        let m ← Maze.ofText "b.A.@.a"
        let t ← m.legs
        let r ← (replay t m.startId [0, 1] none).outcome
        pure (m.starts, m.startId, r.cost)) = .ok ([⟨0, 4⟩], 2, 8) := by cbv
    simp only [bind_ok_iff, pure_eq_ok, Except.ok.injEq, Prod.mk.injEq] at h
    obtain ⟨m, hm, t, ht, r, hr, hs, hid, hcost⟩ := h
    obtain ⟨ds, ps, hlen, -, -, -, -, hadm⟩ := (replay_is_walk ht [0, 1]).1 _ r hs hr
    exact ⟨m, hm, ds, by omega, hadm (by rw [hid]; decide)⟩
  · have h : (do
        let m ← Maze.ofText "a@#@A.b"
        let t ← m.legs
        let homes ← assignQuadrants m.keyIds t 4
        let r ← (replay t m.startId [0, 1] (some homes)).outcome
        pure r.cost) = .ok 4 := by cbv
    simp only [bind_ok_iff, pure_eq_ok, Except.ok.injEq] at h
    obtain ⟨m, hm, t, ht, homes, hh, r, hr, hcost⟩ := h
    obtain ⟨xs, ps, hlen, hstarts, hadm, -, -⟩ := (replay_is_walk ht [0, 1]).2 4 homes r hh hr
    exact ⟨m, hm, xs, by omega, hstarts, hadm⟩

/-- **The start is no key, but an order may name it.** Coming back to it then counts as holding the
key of the letter after the last one, and here gate `C` is passed, although it has no key. -/
theorem named_start_opens_gate : ∃ m t r, Maze.ofText "a@Cb" = .ok m ∧ m.legs = .ok t ∧
    m.starts = [⟨0, 1⟩] ∧ (replay t m.startId [0, 2, 1] none).outcome = .ok r ∧
    ¬ ∃ ds ps, (ds.length : Int) = r.cost ∧
      List.Forall₂ (fun k p => m.landmark? p = some k) [0, 2, 1] ps ∧
      ps.Sublist ((⟨0, 1⟩ : Coord).trail ds) ∧
      m.Admits [⟨0, 1⟩] ((⟨0, 1⟩ : Coord).trail ds) := by
  have h : (do
      let m ← Maze.ofText "a@Cb"
      let t ← m.legs
      let r ← (replay t m.startId [0, 2, 1] none).outcome
      pure (m.starts, r.cost, m.keyIds, m.startId, m.landmark? ⟨0, 3⟩, m.at? ⟨0, 2⟩)) =
      .ok ([⟨0, 1⟩], 4, [0, 1], 2, some 1, some (.gate 2)) := by cbv
  have hoff : (do
      let m ← Maze.ofText "a@Cb"
      pure (m.at? ⟨-1, 3⟩, m.at? ⟨1, 3⟩, m.at? ⟨0, 4⟩)) = .ok (none, none, none) := by cbv
  simp only [bind_ok_iff, pure_eq_ok, Except.ok.injEq, Prod.mk.injEq] at h hoff
  obtain ⟨m, hm, t, ht, r, hr, hs, -, hids, hid, hb, hgate⟩ := h
  obtain ⟨m', hm', hup, hdown, hright⟩ := hoff
  obtain rfl : m = m' := Except.ok.inj (hm.symm.trans hm')
  refine ⟨m, t, r, hm, ht, hs, hr, ?_⟩
  rintro ⟨ds, ps, -, hps, hsub, hadm⟩
  -- the place of `b` would be entered, but its only open neighbour is the gate
  have hmem : (⟨0, 3⟩ : Coord) ∈ (⟨0, 1⟩ : Coord).trail ds := by
    obtain _ | ⟨-, _ | ⟨-, _ | ⟨hlast, -⟩⟩⟩ := hps
    rw [landmark_unique hb hlast (by rw [hid]; decide)]
    exact hsub.subset (by simp)
  refine hadm.notMem_of_keyless (mem_starts.1 (by rw [hs]; simp)) (fun x d hd ho => ?_) hmem
  have hx : (⟨0, 3⟩ : Coord).step d.opposite = x := hd ▸ Coord.step_opposite x d
  subst hx
  obtain ⟨c, hc, -⟩ := ho
  cases d with
  | down => exact absurd (hup.symm.trans hc) (by simp)
  | up => exact absurd (hdown.symm.trans hc) (by simp)
  | left => exact absurd (hright.symm.trans hc) (by simp)
  | right =>
    refine ⟨2, hgate, fun z hz => ?_⟩
    have hkey : (2 : Int) ∈ m.keyIds := mem_keyIds.2 ⟨2, z, hz, rfl⟩
    rw [hids] at hkey
    simp at hkey

end GatedMaze
