import GatedMaze.Proofs.Counts
import Mathlib

/-!
# What a ledger recalls of its offers

A ledger is sorted into shelves, and a shelf into rows. Seen from outside it is one list of the entries that
were offered since it was emptied last: of the offers for a state it holds the first of the cheapest, and
it lists the states by the number of keys held and then in the order in which they were offered first.

* `FirstCheapest.append_single`: one more offer.
* `Records.put`, `Records.after`: what an offer and any call keep.
* `Tidy.mem_level`, `Tidy.mem_items`, `Records.sorted_items`: what is listed, and in which order.
* `recalls_afterAll`: what is read off a ledger after any calls.
-/

namespace GatedMaze

/-- The first of the cheapest of some entries, if there are any. -/
def FirstCheapest (es : List Entry) : Option Entry → Prop
  | none => es = []
  | some e => ∃ before after, es = before ++ e :: after ∧ (∀ x ∈ before, e.cost < x.cost) ∧
      ∀ x ∈ after, e.cost ≤ x.cost

/-- One more entry is the cheapest only if it is cheaper than those before. -/
theorem FirstCheapest.append_single {es : List Entry} {r : Option Entry} (h : FirstCheapest es r)
    (e : Entry) :
    FirstCheapest (es ++ [e]) (if ∀ hit ∈ r, e.cost < hit.cost then some e else r) := by
  cases r with
  | none =>
    obtain rfl : es = [] := h
    exact ⟨[], [], rfl, by simp, by simp⟩
  | some hit =>
    obtain ⟨before, after, rfl, hbefore, hafter⟩ := h
    simp only [Option.mem_some_iff, forall_eq']
    split
    · next hlt =>
      refine ⟨_, [], rfl, fun x hx => ?_, by simp⟩
      rcases List.mem_append.1 hx with hx | hx
      · exact hlt.trans (hbefore x hx)
      · rcases List.mem_cons.1 hx with rfl | hx
        · exact hlt
        · exact hlt.trans_le (hafter x hx)
    · next hge =>
      refine ⟨before, after ++ [e], by simp, hbefore, fun x hx => ?_⟩
      rcases List.mem_append.1 hx with hx | hx
      · exact hafter x hx
      · obtain rfl := List.mem_singleton.1 hx
        exact not_lt.1 hge

/-- The states of a shelf on which each has an entry. -/
theorem Shelf.map_fst_items {shelf : Shelf} (h : ∀ s ∈ shelf.order, (shelf.get? s).isSome) :
    shelf.items.map Prod.fst = shelf.order.reverse := by
  have hfst : ∀ s ∈ shelf.order.reverse,
      ((shelf.get? s).map fun e => (s, e)).map Prod.fst = some s := fun s hs => by
    obtain ⟨e, he⟩ := Option.isSome_iff_exists.1 (h s (List.mem_reverse.1 hs))
    rw [he]
    rfl
  rw [Shelf.items, List.map_filterMap, List.filterMap_congr hfst, List.filterMap_some]

namespace Ledger

/-- What can be asked of a ledger that changes it. -/
inductive Call where
  /-- An entry is offered for a state. -/
  | put (s : State) (e : Entry)
  | clear

/-- The ledger after a call. -/
def Call.after (c : Call) (l : Ledger) : Ledger :=
  match c with
  | .put s e => (l.put s e).1
  | .clear => .empty

/-- The offers since a ledger was emptied last, after one more call. -/
def Call.since (c : Call) (os : List (State × Entry)) : List (State × Entry) :=
  match c with
  | .put s e => os ++ [(s, e)]
  | .clear => []

/-- The ledger after calls in turn, the first of them on the ledger without entries. -/
def afterAll (calls : List Call) : Ledger := calls.foldl (fun l c => c.after l) .empty

/-- The offers since the last time that calls empty a ledger. -/
def offers (calls : List Call) : List (State × Entry) := calls.foldl (fun os c => c.since os) []

/-- The entries that were offered for a state. -/
def offered (os : List (State × Entry)) (s : State) : List Entry :=
  os.filterMap fun x => if x.1 = s then some x.2 else none

/-- How many offers were made before the first one for a state. -/
def firstAt (os : List (State × Entry)) (s : State) : Nat := (os.map Prod.fst).idxOf s

/-- The order in which states are listed: by the number of keys held, then by the first offer. -/
def ListedBefore (os : List (State × Entry)) (s t : State) : Prop :=
  s.held.size < t.held.size ∨ s.held.size = t.held.size ∧ firstAt os s < firstAt os t

/-- What is read off a ledger is what offers amount to. -/
structure Recalls (l : Ledger) (os : List (State × Entry)) : Prop where
  /-- A state has the first of the cheapest entries that were offered for it. -/
  get : ∀ s, FirstCheapest (offered os s) (l.get? s)
  /-- An offer is taken when its state has no entry or a dearer one. -/
  put : ∀ s e, (l.put s e).2 = true ↔ l.get? s = none ∨ ∃ hit, l.get? s = some hit ∧ e.cost < hit.cost
  /-- The size counts the states for which there were offers. -/
  size : l.size = (os.map Prod.fst).toFinset.card
  /-- A level lists the states with so many keys, each once. -/
  level : ∀ n, ((l.level n).map Prod.fst).Nodup ∧
    ∀ x, x ∈ l.level n ↔ x.1.held.size = n ∧ l.get? x.1 = some x.2
  /-- All states are listed, each once, in order. -/
  items : (l.items.map Prod.fst).Nodup ∧ (∀ x, x ∈ l.items ↔ l.get? x.1 = some x.2) ∧
    (l.items.map Prod.fst).Pairwise (ListedBefore os)

variable {l : Ledger} {os : List (State × Entry)} {s t : State} {e : Entry} {n : Nat}

theorem offered_append_single (os : List (State × Entry)) (s t : State) (e : Entry) :
    offered (os ++ [(s, e)]) t = offered os t ++ if s = t then [e] else [] := by
  unfold offered
  rw [List.filterMap_append]
  split <;> simp [*]

/-- A ledger accepts what is cheaper than anything it holds for the state. -/
theorem accepts_iff : l.accepts s e = true ↔ ∀ hit ∈ l.get? s, e.cost < hit.cost := by
  unfold accepts
  cases l.get? s <;> simp

theorem firstAt_append_single (hs : s ∈ os.map Prod.fst) (x : State × Entry) :
    firstAt (os ++ [x]) s = firstAt os s := by
  rw [firstAt, List.map_append, List.idxOf_append_of_mem hs, firstAt]

/-- A ledger holds what some offers amount to. On every shelf the states that came last stand first. -/
structure Records (l : Ledger) (os : List (State × Entry)) : Prop where
  tidy : l.Tidy
  get : ∀ s, FirstCheapest (offered os s) (l.get? s)
  newest : ∀ n, (l.shelf n).order.Pairwise fun s t => firstAt os t < firstAt os s

theorem records_empty : Records .empty [] where
  tidy := tidy_empty
  get s := by simp [offered, empty, Ledger.get?, FirstCheapest]
  newest n := by simp [shelf, empty, Shelf.empty]

namespace Records

variable (h : l.Records os)
include h

/-- The states with an entry are those for which there were offers. -/
theorem isSome_get?_iff : (l.get? s).isSome ↔ s ∈ os.map Prod.fst := by
  have hget := h.get s
  have hmem : s ∈ os.map Prod.fst ↔ offered os s ≠ [] := by
    simp [offered, List.filterMap_eq_nil_iff]
  rw [hmem]
  cases hs : l.get? s with
  | none =>
    rw [hs] at hget
    simpa [FirstCheapest] using hget
  | some e =>
    rw [hs] at hget
    obtain ⟨before, after, heq, -⟩ := hget
    simp [heq]

theorem mem_of_mem_order (hs : s ∈ (l.shelf n).order) : s ∈ os.map Prod.fst :=
  h.isSome_get?_iff.1 (((tidy_iff.1 h.tidy n).2 s).1 hs).2

/-- **What an offer keeps.** -/
theorem put (s : State) (e : Entry) : (l.put s e).1.Records (os ++ [(s, e)]) where
  tidy := h.tidy.put s e
  get t := by
    have hget := h.get t
    rw [offered_append_single, get?_put]
    by_cases hst : s = t
    · subst hst
      have hnext := hget.append_single e
      simp only [accepts_iff, true_and, if_true]
      exact hnext
    · rw [if_neg hst, if_neg fun hs => hst hs.1, List.append_nil]
      exact hget
  newest n := by
    have hold : (l.shelf n).order.Pairwise
        fun t u => firstAt (os ++ [(s, e)]) u < firstAt (os ++ [(s, e)]) t := by
      refine (h.newest n).imp_of_mem fun {t u} ht hu hlt => ?_
      rwa [firstAt_append_single (h.mem_of_mem_order ht), firstAt_append_single (h.mem_of_mem_order hu)]
    rw [shelf_put]
    split
    · next hs =>
      obtain ⟨-, rfl⟩ := hs
      rw [Shelf.replace, ← get?_eq]
      split
      · exact hold
      · next hnew =>
        refine List.pairwise_cons.2 ⟨fun t ht => ?_, hold⟩
        have hnot : s ∉ os.map Prod.fst := fun hs => hnew (h.isSome_get?_iff.2 hs)
        have hmem := h.mem_of_mem_order ht
        rw [firstAt_append_single hmem, firstAt, firstAt, List.map_append,
          List.idxOf_append_of_notMem hnot]
        exact (List.idxOf_lt_length_iff.2 hmem).trans_le (Nat.le_add_right ..)
    · exact hold

theorem after (c : Call) : (c.after l).Records (c.since os) := by
  cases c with
  | put s e => exact h.put s e
  | clear => exact records_empty

end Records

theorem level_eq (l : Ledger) (n : Nat) : l.level n = (l.shelf n).items := by
  rw [level, shelf]
  cases l.shelves[n]? <;> rfl

/-- **The states of a level.** -/
theorem Tidy.mem_level (hl : l.Tidy) {x : State × Entry} :
    x ∈ l.level n ↔ x.1.held.size = n ∧ l.get? x.1 = some x.2 := by
  rw [level_eq, Shelf.items, List.mem_filterMap]
  simp only [List.mem_reverse, (tidy_iff.1 hl n).2, Option.map_eq_some_iff]
  constructor
  · rintro ⟨s, ⟨rfl, -⟩, e, he, rfl⟩
    exact ⟨rfl, (get?_eq l s).trans he⟩
  · rintro ⟨rfl, he⟩
    exact ⟨x.1, ⟨rfl, by rw [he]; rfl⟩, x.2, (get?_eq l x.1).symm.trans he, rfl⟩

theorem items_eq (l : Ledger) : l.items = (l.shelves.toList.map Prod.fst).flatMap l.level := by
  rw [items, List.flatMap_map]
  refine List.flatMap_congr fun v hv => ?_
  rw [level_eq, shelf, Std.TreeMap.mem_toList_iff_getElem?_eq_some.1 hv, Option.getD_some]

/-- **The states of a ledger.** -/
theorem Tidy.mem_items (hl : l.Tidy) {x : State × Entry} : x ∈ l.items ↔ l.get? x.1 = some x.2 := by
  rw [items_eq, List.mem_flatMap]
  simp only [hl.mem_level]
  constructor
  · rintro ⟨n, -, -, hx⟩
    exact hx
  · intro hx
    obtain ⟨shelf, hshelf, -⟩ := Option.bind_eq_some_iff.1 hx
    exact ⟨_, List.mem_map.2 ⟨(_, shelf), Std.TreeMap.mem_toList_iff_getElem?_eq_some.2 hshelf, rfl⟩,
      rfl, hx⟩

namespace Records

variable (h : l.Records os)
include h

/-- A level lists its states in the order in which they were offered first. -/
theorem sorted_level (n : Nat) :
    ((l.level n).map Prod.fst).Pairwise fun s t => firstAt os s < firstAt os t := by
  have hsome : ∀ s ∈ (l.shelf n).order, ((l.shelf n).get? s).isSome := fun s hs => by
    obtain ⟨rfl, hs⟩ := ((tidy_iff.1 h.tidy n).2 s).1 hs
    rwa [← get?_eq]
  rw [level_eq, Shelf.map_fst_items hsome]
  exact List.pairwise_reverse.2 (h.newest n)

/-- **All states are listed in order.** -/
theorem sorted_items : (l.items.map Prod.fst).Pairwise (ListedBefore os) := by
  have hsize : ∀ n, ∀ s ∈ (l.level n).map Prod.fst, s.held.size = n := fun n s hs => by
    obtain ⟨x, hx, rfl⟩ := List.mem_map.1 hs
    exact (h.tidy.mem_level.1 hx).1
  rw [items_eq, List.map_flatMap]
  refine List.pairwise_flatMap.2 ⟨fun n _ => ?_, ?_⟩
  · refine (h.sorted_level n).imp_of_mem fun {s t} hs ht hlt => .inr ⟨?_, hlt⟩
    exact (hsize n s hs).trans (hsize n t ht).symm
  · refine List.pairwise_map.2 (Std.TreeMap.ordered_keys_toList.imp fun {v w} hlt s hs t ht => .inl ?_)
    rw [hsize _ s hs, hsize _ t ht]
    exact Nat.compare_eq_lt.1 hlt

/-- The size counts the states for which there were offers. -/
theorem size_eq : l.size = (os.map Prod.fst).toFinset.card := by
  have hstates : {s | (l.get? s).isSome} = ((os.map Prod.fst).toFinset : Set State) := by
    ext s
    rw [List.coe_toFinset]
    exact h.isSome_get?_iff
  rw [h.tidy.size_eq, hstates, Set.ncard_coe_finset]

theorem recalls : l.Recalls os where
  get := h.get
  put s e := by
    rw [put_snd, accepts_iff]
    cases l.get? s <;> simp
  size := h.size_eq
  level n := ⟨(h.sorted_level n).imp fun hlt e => hlt.ne (congrArg _ e), fun _ => h.tidy.mem_level⟩
  items := by
    refine ⟨h.sorted_items.imp ?_, fun _ => h.tidy.mem_items, h.sorted_items⟩
    rintro s t (hlt | ⟨-, hlt⟩) rfl
    · exact lt_irrefl _ hlt
    · exact lt_irrefl _ hlt

end Records

theorem records_afterAll (calls : List Call) : (afterAll calls).Records (offers calls) := by
  induction calls using List.reverseRecOn with
  | nil => exact records_empty
  | append_singleton calls c ih =>
    rw [afterAll, offers, List.foldl_append, List.foldl_append]
    exact ih.after c

/-- **What a ledger recalls of its offers.** After any calls, a state has the first of the cheapest entries
that were offered for it since the ledger was emptied last; an offer is taken when it is cheaper than what
its state has; and the listed states are those with an entry, each once, by the number of keys held and then
in the order in which they were offered first, whatever was replaced. -/
theorem recalls_afterAll (calls : List Call) : (afterAll calls).Recalls (offers calls) :=
  (records_afterAll calls).recalls

example : (afterAll [.put ⟨⟨2⟩, 1⟩ ⟨5, none, []⟩, .put ⟨⟨1⟩, 0⟩ ⟨3, none, []⟩,
    .put ⟨⟨2⟩, 1⟩ ⟨4, none, []⟩]).items =
      [(⟨⟨2⟩, 1⟩, ⟨4, none, []⟩), (⟨⟨1⟩, 0⟩, ⟨3, none, []⟩)] := by cbv

end Ledger

end GatedMaze
