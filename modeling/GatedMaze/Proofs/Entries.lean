import GatedMaze.Planner
import GatedMaze.Proofs.Subsets

/-!
# The entry of an order

A planner does not walk: it extends entries. The entry of an order `q ++ [k]` holds the moves of
the walker along it, the last key of `q` and the last key of each agent.

* `serves_ofQuadrants_iff`: which keys so many agents serve.
* `transition_eq`: extending the entry of an order does what fetching one more key does.
* `originIn_of_along`: a walker sets out from the start or from a key of the order.
-/

namespace GatedMaze

open Walker

namespace Walker

/-- The last key of a quadrant is a key of the order. -/
theorem mem_of_lastIn {legs : LegTable} {start : Int} {homes : Option Homes} {o : List Int}
    {w : Walker} {x j : Int} (h : along legs start homes o = .ok w) (hx : w.lastIn.of? x = some j) :
    j ∈ o := by
  cases homes with
  | none =>
    rw [lastIn_of_lone h] at hx
    cases hx
  | some homes =>
    rw [lastIn_eq h] at hx
    exact (List.mem_filter.1 (List.mem_of_getLast? hx)).1

/-- A walker sets out from the start or from a key that it has fetched. -/
theorem originIn_of_along {legs : LegTable} {start : Int} {homes : Option Homes} {o : List Int}
    {w : Walker} (h : along legs start homes o = .ok w) (quadrant : Option Int) :
    w.originIn start quadrant = start ∨ w.originIn start quadrant ∈ o := by
  cases quadrant with
  | none =>
    rw [originIn, last_of_along h]
    cases hl : o.getLast? with
    | none => exact .inl rfl
    | some k => exact .inr (List.mem_of_getLast? hl)
  | some x =>
    rw [originIn]
    cases hx : w.lastIn.of? x with
    | none => exact .inl rfl
    | some j => exact .inr (mem_of_lastIn h hx)

end Walker

namespace Crew

/-- The quadrants that the walks of a crew keep to. -/
def homes? : Crew → Option Homes
  | one => none
  | perQuadrant h _ | crowd h _ => some h

/-- A crew that has an agent for each of some keys. -/
def Serves (c : Crew) (keys : List Int) : Prop :=
  match c with
  | one => True
  | perQuadrant h n => ∀ k ∈ keys, ∃ x, h.of? k = some x ∧ 0 ≤ x ∧ x < n
  | crowd .. => False

/-- The last key of each agent, where a walker stands. -/
def postsOf (c : Crew) (w : Walker) : List (Option Int) :=
  match c with
  | perQuadrant _ n => (List.range n.toNat).map fun (i : Nat) => w.lastIn.of? (i : Int)
  | one | crowd .. => []

/-- The entry of an order: `w` is the walker after it and `q` is the order without its last key. -/
def entryOf (c : Crew) (q : List Int) (w : Walker) : Entry := ⟨w.walked, q.getLast?, c.postsOf w⟩

/-- The last key of an order with its entry, none of the empty order. -/
def prev (c : Crew) (q : List Int) (w : Walker) : Option (Int × Entry) :=
  q.getLast?.map fun j => (j, c.entryOf q.dropLast w)

variable {c : Crew} {legs : LegTable} {start : Int} {keys q : List Int} {w : Walker} {k : Int}

theorem serves_one (keys : List Int) : one.Serves keys := trivial

/-- An agent for each of some keys is one for each of fewer keys. -/
theorem Serves.of_subset {ks : List Int} (hs : c.Serves keys) (hsub : ∀ k ∈ ks, k ∈ keys) :
    c.Serves ks := by
  cases c with
  | one => trivial
  | perQuadrant h n => exact fun k hk => hs k (hsub k hk)
  | crowd => exact hs

@[simp] theorem homes?_ofQuadrants (h : Homes) (n : Int) : (ofQuadrants h n).homes? = some h := by
  unfold ofQuadrants
  split <;> rfl

/-- **So many agents serve the keys of their quadrants** when there is room for the agents. -/
theorem serves_ofQuadrants_iff {h : Homes} {n : Int} : (ofQuadrants h n).Serves keys ↔
    (-0x8000000000000000 ≤ n ∧ n < roomLimit) ∧ (perQuadrant h n).Serves keys := by
  constructor
  · intro hs
    cases hroom : roomFault? n with
    | some reason =>
      rw [ofQuadrants, hroom] at hs
      exact hs.elim
    | none =>
      rw [ofQuadrants, hroom] at hs
      exact ⟨(roomFault?_eq_none_iff n).1 hroom, hs⟩
  · rintro ⟨hroom, hs⟩
    rwa [ofQuadrants_eq h hroom]

theorem exists_quadrantOf (hs : c.Serves keys) (hk : k ∈ keys) :
    ∃ quadrant, quadrantOf c.homes? k = .ok quadrant := by
  cases c with
  | one => exact ⟨none, rfl⟩
  | perQuadrant h n =>
    obtain ⟨x, hx, -⟩ := hs k hk
    exact ⟨some x, quadrantOf_some_iff.2 ⟨x, hx, rfl⟩⟩
  | crowd => exact absurd hs id

/-- The posts before an entry are those of its walker, also before any entry. -/
theorem posts_prev {h : Homes} {n : Int} (hw : along legs start (some h) q = .ok w) :
    posts n (((perQuadrant h n).prev q w).map (·.2)) = (perQuadrant h n).postsOf w := by
  cases hl : q.getLast? with
  | none =>
    rw [List.getLast?_eq_none_iff] at hl
    subst hl
    obtain rfl := along_nil_ok.1 hw
    apply List.ext_getElem <;> simp [prev, posts, postsOf, atStart, Homes.empty, Homes.of?]
  | some j =>
    simp only [prev, hl, Option.map_some, posts, entryOf]
    split
    · next he =>
      have hn : n.toNat = 0 := by simpa [postsOf] using he
      simp [postsOf, hn]
    · rfl

theorem agentOf_eq {h : Homes} {n x : Int} (hx : h.of? k = some x) (h0 : 0 ≤ x) (hn : x < n) :
    agentOf h ((perQuadrant h n).postsOf w) k = .ok x.toNat := by
  have hlen : ((perQuadrant h n).postsOf w).length = n.toNat := by simp [postsOf]
  have hpos : position? n.toNat x = some x.toNat := by
    have hneg : ¬ x < 0 := by omega
    simp [position?, hneg, h0, hn]
  simp [agentOf, hx, hlen, hpos]

/-- The agent sets out from where the walker does. -/
theorem origin_prev (hs : c.Serves keys) (hk : k ∈ keys)
    (hw : along legs start c.homes? q = .ok w) {quadrant : Option Int}
    (hquad : quadrantOf c.homes? k = .ok quadrant) :
    c.origin start (c.prev q w) k = .ok (w.originIn start quadrant) := by
  cases c with
  | one =>
    cases hquad
    rw [originIn, last_of_along hw]
    cases hl : q.getLast? <;> simp [origin, prev, hl]
  | perQuadrant h n =>
    obtain ⟨x, hx, h0, hn⟩ := hs k hk
    obtain ⟨y, hy, rfl⟩ := quadrantOf_some_iff.1 hquad
    obtain rfl : x = y := Option.some.inj (hx.symm.trans hy)
    simp only [origin, posts_prev hw, agentOf_eq hx h0 hn, Except.map, originIn, Except.ok.injEq]
    have hlt : x.toNat < n.toNat := by omega
    simp [postsOf, hlt, Int.toNat_of_nonneg h0]
  | crowd => exact absurd hs id

/-- Once `k` is fetched the posts are those of the walker that has fetched it. -/
theorem advance_prev (hs : c.Serves keys) (hk : k ∈ keys)
    (hw : along legs start c.homes? q = .ok w) {quadrant : Option Int}
    (hquad : quadrantOf c.homes? k = .ok quadrant) (d : Int) :
    c.advance ((c.prev q w).map (·.2)) k = .ok (c.postsOf (w.fetched quadrant k d)) := by
  cases c with
  | one => rfl
  | perQuadrant h n =>
    obtain ⟨x, hx, h0, hn⟩ := hs k hk
    obtain ⟨y, hy, rfl⟩ := quadrantOf_some_iff.1 hquad
    obtain rfl : x = y := Option.some.inj (hx.symm.trans hy)
    simp only [advance, posts_prev hw, agentOf_eq hx h0 hn, Except.map, Except.ok.injEq]
    apply List.ext_getElem
    · simp [postsOf]
    · intro i h1 h2
      simp only [postsOf, List.getElem_set, List.getElem_map, List.getElem_range, fetched,
        Homes.of?_assign]
      have hi : x.toNat = i ↔ x = (i : Int) := by omega
      simp only [hi]
  | crowd => exact absurd hs id

end Crew

namespace Problem

/-- A problem whose start and keys lie in the table of legs, whose keys a set can hold and whose
crew has an agent for each of them. -/
structure Fits (p : Problem) : Prop where
  start : p.legs.Holds p.start
  keys : ∀ k ∈ p.keys, p.legs.Holds k ∧ k < IdSet.capacity
  crew : p.crew.Serves p.keys

variable {p : Problem} {q : List Int} {w : Walker} {k : Int}

/-- Keys of a table that are small enough can be put into a set. -/
theorem inRange_of_holds {legs : LegTable} {keys : List Int}
    (hk : ∀ k ∈ keys, legs.Holds k ∧ k < IdSet.capacity) : IdSet.InRange keys :=
  fun k hm => ⟨(hk k hm).1.1, (hk k hm).2⟩

theorem Fits.range (hp : p.Fits) : IdSet.InRange p.keys := inRange_of_holds hp.keys

/-- The walker along an order of a problem's keys. -/
def along (p : Problem) (o : List Int) : Except Fault Walker :=
  Walker.along p.legs p.start p.crew.homes? o

/-- One more key of a problem. -/
def next (p : Problem) (w : Walker) (k : Int) : Except Fault Walker :=
  Walker.next p.legs p.start p.crew.homes? w k

/-- The table says whether there is a leg from where a walker sets out. -/
theorem exists_found (hp : p.Fits) (hw : p.along q = .ok w) (hsub : ∀ x ∈ q, x ∈ p.keys)
    (hk : k ∈ p.keys) (quadrant : Option Int) :
    ∃ found, p.legs.get (w.originIn p.start quadrant) k = .ok found := by
  refine PairTable.exists_get ⟨?_, (hp.keys k hk).1⟩
  rcases originIn_of_along hw quadrant with h | h
  · rw [h]; exact hp.start
  · exact (hp.keys _ (hsub _ h)).1

/-- What it takes to fetch one more key of a problem, in view of what the table says. -/
theorem next_ok_iff (hp : p.Fits) (hw : p.along q = .ok w) (hk : k ∈ p.keys) (hnew : k ∉ q)
    {quadrant : Option Int} (hquad : quadrantOf p.crew.homes? k = .ok quadrant) {found : Option Leg}
    (hfound : p.legs.get (w.originIn p.start quadrant) k = .ok found) {w' : Walker} :
    p.next w k = .ok w' ↔ ∃ leg, found = some leg ∧ leg.gates.subset w.held = true ∧
      w' = w.fetched quadrant k leg.distance := by
  have hcontains : w.held.contains k = false := by
    rw [← Bool.not_eq_true, contains_held hw]; exact hnew
  rw [next, next_eq_ok_iff]
  constructor
  · rintro ⟨-, -, quadrant', leg, hquad', hleg, hopen, rfl⟩
    rw [hquad, Except.ok.injEq] at hquad'
    subst hquad'
    rw [hfound, Except.ok.injEq] at hleg
    exact ⟨leg, hleg, hopen, rfl⟩
  · rintro ⟨leg, rfl, hopen, rfl⟩
    exact ⟨hcontains, hp.range k hk, quadrant, leg, hquad, hfound,
      hopen, rfl⟩

theorem toOption_next_eq_none (h : ∀ w', p.next w k ≠ .ok w') : (p.next w k).toOption = none := by
  cases hn : p.next w k with
  | error e => rfl
  | ok w' => exact absurd hn (h w')

/-- The entry that a leg makes of the entry of an order is that of the order with one more key. -/
theorem entryOf_fetched (hw : p.along q = .ok w) (quadrant : Option Int) (d : Int) :
    (⟨(match p.crew.prev q w with | none => 0 | some (_, e) => e.cost) + d,
      (p.crew.prev q w).map (·.1), p.crew.postsOf (w.fetched quadrant k d)⟩ : Entry) =
      p.crew.entryOf q (w.fetched quadrant k d) := by
  cases hl : q.getLast? with
  | none =>
    -- before any entry nothing was walked
    rw [List.getLast?_eq_none_iff] at hl
    subst hl
    obtain rfl := along_nil_ok.1 hw
    rfl
  | some j => simp [Crew.prev, Crew.entryOf, hl, fetched]

/-- **Extending the entry of an order does what fetching one more key does.** -/
theorem transition_eq (hp : p.Fits) (hw : p.along q = .ok w) (hsub : ∀ x ∈ q, x ∈ p.keys)
    (hk : k ∈ p.keys) (hnew : k ∉ q) :
    p.transition w.held (p.crew.prev q w) k =
      .ok ((p.next w k).toOption.map (p.crew.entryOf q)) := by
  obtain ⟨quadrant, hquad⟩ := Crew.exists_quadrantOf hp.crew hk
  -- both look at the same leg
  obtain ⟨found, hfound⟩ := exists_found hp hw hsub hk quadrant
  have hnext : ∀ w', p.next w k = .ok w' ↔ _ := fun w' => next_ok_iff hp hw hk hnew hquad hfound
  unfold transition
  rw [Crew.origin_prev hp.crew hk hw hquad]
  simp only [bind, Except.bind, hfound]
  cases found with
  | none =>
    rw [toOption_next_eq_none fun w' hn => by obtain ⟨leg, h, -⟩ := (hnext w').1 hn; cases h]
    rfl
  | some leg =>
    cases hopen : leg.gates.subset w.held with
    | false =>
      rw [toOption_next_eq_none fun w' hn => by
        obtain ⟨_, h, hs, -⟩ := (hnext w').1 hn
        cases h; rw [hopen] at hs; cases hs]
      simp [hopen]
    | true =>
      rw [(hnext _).2 ⟨leg, rfl, hopen, rfl⟩]
      simp only [hopen, if_true, Crew.advance_prev hp.crew hk hw hquad leg.distance]
      exact congrArg (fun e => Except.ok (some e)) (entryOf_fetched hw quadrant leg.distance)

end Problem

end GatedMaze
