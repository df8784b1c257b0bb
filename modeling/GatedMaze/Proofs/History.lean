import GatedMaze.Proofs.Counts
import GatedMaze.Proofs.Legs
import GatedMaze.Proofs.Recall

/-!
# What a planner was asked before

A planner may keep its entries, and the next search goes over them. It finds each of them again, so a kept
entry never changes an answer. Legs may be changed while no entries are kept.

* `Filled.get?_congr`, `conclude_of_filled`: filled ledgers hold the same entries, and the same plan is read
  off them.
* `fillLevels_of_unfit`: a search from outside the table, or for a crowd, fails at once.
* `Truthful.after`, `Truthful.afterAll`: what every call keeps, any sequence of calls keeps.
* `Truthful.outcome_solve`, `Truthful.ledger_solve`: what a search answers and what it leaves behind.
* `outcome_afterAll`: what a planner answers after any calls, and when it has no entries left.
-/

namespace GatedMaze

open Walker

/-- The keys read back depend on the entries only. -/
theorem Ledger.trail_congr {l l' : Ledger} (h : ∀ s, l.get? s = l'.get? s) (held : IdSet) (k : Int) :
    l.trail held k = l'.trail held k := by
  fun_induction Ledger.trail l held k with
  | case1 held k cost j posts hget hin ih =>
    conv_rhs => rw [Ledger.trail, ← h, hget]
    simp only [dif_pos hin, ih]
  | case2 held k cost j posts hget hout =>
    conv_rhs => rw [Ledger.trail, ← h, hget]
    simp only [dif_neg hout]
  | case3 held k hnone =>
    conv_rhs => rw [Ledger.trail, ← h]
    split
    · next cost j posts hget => exact absurd hget (hnone cost j posts)
    · rfl

/-- A ledger of size zero has no entries. -/
theorem Ledger.Tidy.get?_eq_none {l : Ledger} (hl : l.Tidy) (h : l.size = 0) (s : State) :
    l.get? s = none := by
  have hlists := List.length_eq_zero_iff.1 h
  rw [Ledger.get?]
  cases hshelf : l.shelves[s.held.size]? with
  | none => rfl
  | some shelf =>
    cases hget : shelf.get? s with
    | none => exact hget
    | some e =>
      have hmem : s ∈ shelf.order := (hl.listed _ _ hshelf s).2 ⟨rfl, by rw [hget]; rfl⟩
      have hnil := List.flatMap_eq_nil_iff.1 hlists _
        (Std.TreeMap.mem_toList_iff_getElem?_eq_some.2 hshelf)
      rw [hnil] at hmem
      cases hmem

namespace Problem

variable {p : Problem} {l l' : Ledger} {k : Int} {s : State}

/-- **Filled ledgers hold the same entries.** -/
theorem Filled.get?_congr (hl : p.Filled p.keys.length l) (hl' : p.Filled p.keys.length l') (s : State) :
    l.get? s = l'.get? s := by
  have hiff : ∀ {l : Ledger}, p.Filled p.keys.length l →
      ∀ e, l.get? s = some e ↔ ∃ o, p.Leads o s e := by
    intro l hl e
    constructor
    · exact hl.sound s e
    · rintro ⟨o, ho⟩
      exact hl.complete o s e ho ho.length_le
  refine Option.ext fun e => ?_
  rw [hiff hl, hiff hl']

/-- **The same plan is read off filled ledgers.** -/
theorem conclude_of_filled (hl : p.Filled p.keys.length l) (hl' : p.Filled p.keys.length l')
    (ht : l.Tidy) (ht' : l'.Tidy) : Planner.conclude ⟨p, l⟩ = Planner.conclude ⟨p, l'⟩ := by
  have hget := hl.get?_congr hl'
  have hend : ∀ full, cheapestEnd l full = cheapestEnd l' full := by
    intro full
    unfold cheapestEnd
    simp only [hget]
  have horder : ∀ full k, l.orderInto full k = l'.orderInto full k := by
    intro full k
    unfold Ledger.orderInto
    rw [Ledger.trail_congr hget]
  have hsize : l.size = l'.size := by
    rw [ht.size_eq, ht'.size_eq]
    simp only [hget]
  unfold Planner.conclude
  simp only [hend, horder, hsize]
  rfl

/-- Before any entry an agent sets out from the start. -/
theorem origin_start (hserves : p.crew.Serves p.keys) (hk : k ∈ p.keys) :
    p.crew.origin p.start none k = .ok p.start := by
  obtain ⟨quadrant, hquad⟩ := Crew.exists_quadrantOf hserves hk
  have hnil : p.along [] = .ok (atStart p.start) := along_nil
  have horigin := Crew.origin_prev hserves hk hnil hquad
  have hnone : p.crew.prev [] (atStart p.start) = none := rfl
  rw [hnone] at horigin
  rw [horigin, Crew.origin_none horigin]

/-- The first level has a state. -/
theorem levelStates_one_ne_nil (hrange : IdSet.InRange p.keys) (hne : p.keys ≠ []) :
    p.levelStates 1 ≠ [] := by
  intro hnil
  obtain ⟨k, hk⟩ := List.exists_mem_of_ne_nil _ hne
  have hsingle : ∀ i ∈ [k], i ∈ p.keys := by
    intro i hi
    rw [List.mem_singleton.1 hi]
    exact hk
  have hmem : ∀ j, j ∈ (IdSet.empty.addAll [k]).toList ↔ j ∈ [k] :=
    fun j => IdSet.mem_addAll_empty fun i hi => hrange i (hsingle i hi)
  have hperm : (IdSet.empty.addAll [k]).toList.Perm [k] :=
    (List.perm_ext_iff_of_nodup (IdSet.nodup_toList _) (List.nodup_singleton k)).2 hmem
  have hstates := List.flatMap_eq_nil_iff.1 hnil _ (mem_subsetsOfSize_of_perm hrange hsingle hperm)
  have hlast := (hmem k).2 (List.mem_singleton_self k)
  rw [List.map_eq_nil_iff.1 hstates] at hlast
  cases hlast

/-- A state of the first level holds its last key and nothing else. -/
theorem lone_of_mem_levelStates (hrange : IdSet.InRange p.keys) (hs : s ∈ p.levelStates 1) :
    s.last ∈ p.keys ∧ s.held.drop s.last.toNat = .empty := by
  obtain ⟨held, hheld, hs⟩ := List.mem_flatMap.1 hs
  obtain ⟨k, hk, rfl⟩ := List.mem_map.1 hs
  obtain ⟨hsub, hsize⟩ := subset_of_mem_subsetsOfSize hrange hheld
  have hkey : k ∈ p.keys := hsub k hk
  refine ⟨hkey, IdSet.ext_toList fun j => ?_⟩
  have hlt : (held.drop k.toNat).size < held.size := by
    apply IdSet.size_drop_lt
    rw [Int.toNat_of_nonneg (hrange k hkey).1]
    exact hk
  have hzero : (held.drop k.toNat).toList = [] := by
    rw [← List.length_eq_zero_iff, IdSet.length_toList]
    omega
  rw [hzero, IdSet.toList_empty]

/-- A key by itself is resolved by its leg from the start, whatever the ledger holds. -/
theorem resolve_eq_transition {held : IdSet} (hk : 0 ≤ k ∧ k < IdSet.capacity)
    (hrest : held.drop k.toNat = .empty) (l : Ledger) :
    p.resolve l held k = p.transition .empty none k := by
  unfold resolve
  rw [IdSet.erase_eq hk, hrest]
  simp only [bind, Except.bind]
  rw [if_pos (IdSet.isEmpty_iff.2 rfl)]

section Unfit

variable (hkeys : ∀ k ∈ p.keys, p.legs.Holds k ∧ k < IdSet.capacity)
  (hserves : ∀ homes n, p.crew = .perQuadrant homes n → p.crew.Serves p.keys) (hunfit : ¬ p.Fits)

include hkeys hserves hunfit

/-- No key can be fetched first when the start is outside the table or the agents are a crowd. -/
theorem transition_of_unfit (hk : k ∈ p.keys) (rest : IdSet) :
    ∃ e, p.transition rest none k = .error e := by
  have hcrew : p.crew.Serves p.keys ∨ ∃ homes reason, p.crew = .crowd homes reason := by
    cases hc : p.crew with
    | one => exact .inl trivial
    | perQuadrant homes n => exact .inl (hc ▸ hserves homes n hc)
    | crowd homes reason => exact .inr ⟨homes, reason, rfl⟩
  unfold transition
  rcases hcrew with hs | ⟨homes, reason, hc⟩
  · have hout : ¬ (p.legs.Holds p.start ∧ p.legs.Holds k) := fun h => hunfit ⟨h.1, hkeys, hs⟩
    rw [origin_start hs hk]
    simp only [bind, Except.bind, PairTable.get_outside hout]
    exact ⟨_, rfl⟩
  · rw [hc]
    exact ⟨reason, rfl⟩

/-- **A search that cannot begin** fails at its first state, whatever the ledger holds, and leaves the
ledger as it is. -/
theorem fillLevels_of_unfit (hne : p.keys ≠ []) :
    ∃ e, ∀ l, p.fillLevels (List.range' 1 p.keys.length) l = ⟨l, [], .error e⟩ := by
  have hrange : IdSet.InRange p.keys := inRange_of_holds hkeys
  obtain ⟨s, states, hstates⟩ := List.exists_cons_of_ne_nil (levelStates_one_ne_nil hrange hne)
  obtain ⟨hkey, hrest⟩ := lone_of_mem_levelStates hrange (hstates ▸ List.mem_cons_self)
  obtain ⟨e, he⟩ := transition_of_unfit hkeys hserves hunfit hkey .empty
  obtain ⟨n, hn⟩ := Nat.exists_eq_succ_of_ne_zero fun h => hne (List.length_eq_zero_iff.1 h)
  refine ⟨e, fun l => ?_⟩
  have hfill : p.fillStates (p.levelStates 1) 0 l = (l, .error e) := by
    rw [hstates, fillStates, resolve_eq_transition (hrange _ hkey) hrest, he]
  have hlevel : p.fillLevel 1 l = (l, .error e) := by
    unfold levelStates at hfill
    rw [fillLevel]
    simp only [hfill]
  rw [hn, List.range'_succ, fillLevels, hlevel]

end Unfit

end Problem

namespace Planner

/-- What a planner can be asked to do. -/
inductive Call where
  | solve (keep : Bool)
  /-- The entry of a state is looked up. -/
  | look (s : State)
  /-- The entry of a state is worked out anew. -/
  | resolve (held : IdSet) (k : Int)
  /-- The leg of a pair is written into the table. -/
  | edit (a b : Int) (leg : Option Leg)

/-- The planner after a call. -/
def after (w : Planner) : Call → Planner
  | .solve keep => (w.solve keep).1
  | .look _ | .resolve .. => w
  | .edit a b leg =>
    match w.problem.legs.set a b leg with
    | .error _ => w
    | .ok legs => { w with problem := { w.problem with legs := legs } }

/-- Legs may be changed only in the table, and only while no entries are kept. -/
def Allows (w : Planner) : Call → Prop
  | .edit a b _ => (w.problem.legs.Holds a ∧ w.problem.legs.Holds b) ∧ w.ledger.size = 0
  | _ => True

/-- The planner after calls, one after the other. -/
def afterAll (w : Planner) (calls : List Call) : Planner := calls.foldl after w

/-- Whether calls may be made one after the other. -/
def AllowsAll (w : Planner) : List Call → Prop
  | [] => True
  | call :: calls => w.Allows call ∧ (w.after call).AllowsAll calls

variable {w : Planner} {p : Problem} {legs : LegTable} {keys : List Int} {start : Int} {crew : Crew}

/-- A search leaves the problem as it is. -/
theorem problem_solve (w : Planner) (keep : Bool) : (w.solve keep).1.problem = w.problem := by
  unfold Planner.solve
  by_cases hlen : w.problem.keys.length = 0
  · rw [if_pos hlen]
  · rw [if_neg hlen]
    simp only
    split
    · rfl
    · split
      · rfl
      · cases keep <;> rfl

/-- **A search over entries of kept orders** answers what is read off a filled ledger. It keeps this
ledger if asked to, when there is a plan, and no entries else. -/
theorem solve_of_fits (hp : w.problem.Fits) (hne : w.problem.keys ≠ []) (hl : w.problem.Filled 0 w.ledger)
    (ht : w.ledger.Tidy) (keep : Bool) : ∃ l, w.problem.Filled w.problem.keys.length l ∧ l.Tidy ∧
      (w.solve keep).2.outcome = conclude ⟨w.problem, l⟩ ∧
      ((w.solve keep).1.ledger = .empty ∨ keep = true ∧ (w.solve keep).1.ledger = l ∧
        ∃ plan, (w.solve keep).2.outcome = .ok plan) := by
  have hlen : ¬ w.problem.keys.length = 0 := fun h => hne (List.length_eq_zero_iff.1 h)
  obtain ⟨hout, hfill⟩ := Problem.fillLevels_spec hp w.problem.keys.length hl
  rw [Nat.zero_add] at hout hfill
  have htidy : (w.problem.fillLevels (List.range' 1 w.problem.keys.length) w.ledger).ledger.Tidy :=
    Problem.fillLevels_invariant (P := Ledger.Tidy) (fun l s e hl => hl.put s e) _ ht
  refine ⟨_, hfill, htidy, ?_⟩
  unfold Planner.solve
  rw [if_neg hlen]
  simp only [hout]
  cases hc : conclude
      ⟨w.problem, (w.problem.fillLevels (List.range' 1 w.problem.keys.length) w.ledger).ledger⟩ with
  | error e => exact ⟨rfl, .inl rfl⟩
  | ok plan =>
    cases keep with
    | true => exact ⟨rfl, .inr ⟨rfl, rfl, plan, rfl⟩⟩
    | false => exact ⟨rfl, .inl rfl⟩

/-- A planner for the keys of `p` whose entries, if it has any, are those of kept orders. -/
structure Truthful (p : Problem) (w : Planner) : Prop where
  problem : w.problem = { p with legs := w.problem.legs }
  holds : ∀ a, w.problem.legs.Holds a ↔ p.legs.Holds a
  sound : w.problem.Filled 0 w.ledger
  tidy : w.ledger.Tidy
  unfit : ¬ w.problem.Fits → w.ledger = .empty

theorem truthful_ofProblem (p : Problem) : Truthful p (ofProblem p) where
  problem := rfl
  holds := fun _ => Iff.rfl
  sound := Problem.filled_empty
  tidy := Ledger.tidy_empty
  unfit := fun _ => rfl

/-- **An edit** of a planner without entries. -/
theorem Truthful.edit (h : Truthful p w) {a b : Int} {leg : Option Leg}
    (hallowed : w.Allows (.edit a b leg)) : Truthful p (w.after (.edit a b leg)) := by
  obtain ⟨hin, hsize⟩ := hallowed
  obtain ⟨legs, hlegs⟩ := PairTable.exists_set hin leg
  have hafter : w.after (.edit a b leg) = { w with problem := { w.problem with legs := legs } } := by
    rw [after]
    simp only [hlegs]
  have hholds : ∀ c, legs.Holds c ↔ w.problem.legs.Holds c := PairTable.holds_of_set hlegs
  have hnone := h.tidy.get?_eq_none hsize
  rw [hafter]
  refine ⟨?_, fun c => (hholds c).trans (h.holds c), ⟨?_, ?_⟩, h.tidy, fun hunfit => h.unfit ?_⟩
  · show ({ w.problem with legs := legs } : Problem) = _
    rw [h.problem]
  · intro s e he
    have he : w.ledger.get? s = some e := he
    rw [hnone] at he
    cases he
  · rintro o s e ⟨q, v, rfl, -⟩ hlen
    simp at hlen
  · intro hp
    exact hunfit ⟨(hholds _).2 hp.start, fun k hk => ⟨(hholds k).2 (hp.keys k hk).1, (hp.keys k hk).2⟩,
      hp.crew⟩

section Served

variable (hkeys : ∀ k ∈ p.keys, p.legs.Holds k ∧ k < IdSet.capacity)
  (hserves : ∀ homes n, p.crew = .perQuadrant homes n → p.crew.Serves p.keys)

include hkeys hserves

/-- A search that cannot begin fails alike with any entries, and leaves them as they are. -/
theorem solve_of_unfit (hunfit : ¬ p.Fits) (hne : p.keys ≠ []) :
    ∃ e, ∀ l keep, Planner.solve ⟨p, l⟩ keep = (⟨p, l⟩, ⟨[], .error e⟩) := by
  obtain ⟨e, he⟩ := Problem.fillLevels_of_unfit hkeys hserves hunfit hne
  refine ⟨e, fun l keep => ?_⟩
  have hlen : ¬ p.keys.length = 0 := fun h => hne (List.length_eq_zero_iff.1 h)
  unfold Planner.solve
  rw [if_neg hlen]
  simp only [he]

/-- What is known of the keys still holds after edits. -/
theorem Truthful.served (h : Truthful p w) :
    (∀ k ∈ w.problem.keys, w.problem.legs.Holds k ∧ k < IdSet.capacity) ∧
      ∀ homes n, w.problem.crew = .perQuadrant homes n → w.problem.crew.Serves w.problem.keys := by
  have hsame : w.problem.keys = p.keys ∧ w.problem.crew = p.crew := by
    rw [h.problem]
    exact ⟨rfl, rfl⟩
  rw [hsame.1, hsame.2]
  exact ⟨fun k hk => ⟨(h.holds k).2 (hkeys k hk).1, (hkeys k hk).2⟩, hserves⟩

/-- **What a search leaves behind.** -/
theorem Truthful.ledger_solve (h : Truthful p w) (hne : w.problem.keys ≠ []) (keep : Bool) :
    (w.solve keep).1.ledger = .empty ∨ w.problem.Fits ∧ keep = true ∧
      w.problem.Filled w.problem.keys.length (w.solve keep).1.ledger ∧ (w.solve keep).1.ledger.Tidy ∧
      ∃ plan, (w.solve keep).2.outcome = .ok plan := by
  by_cases hp : w.problem.Fits
  · obtain ⟨l, hfill, htidy, -, hempty | ⟨hkeep, hl, hplan⟩⟩ :=
      solve_of_fits hp hne h.sound h.tidy keep
    · exact .inl hempty
    · rw [hl]
      exact .inr ⟨hp, hkeep, hfill, htidy, hplan⟩
  · obtain ⟨hkeys', hserves'⟩ := h.served hkeys hserves
    obtain ⟨e, he⟩ := solve_of_unfit hkeys' hserves' hp hne
    have hsame : (w.solve keep).1 = w := congrArg Prod.fst (he w.ledger keep)
    left
    rw [hsame]
    exact h.unfit hp

/-- **A search** of a planner whose entries are those of kept orders. -/
theorem Truthful.solve (h : Truthful p w) (keep : Bool) : Truthful p (w.after (.solve keep)) := by
  show Truthful p (w.solve keep).1
  have hproblem := problem_solve w keep
  by_cases hne : w.problem.keys = []
  · have hsame : (w.solve keep).1 = w := by
      unfold Planner.solve
      rw [if_pos (List.length_eq_zero_iff.2 hne)]
    rw [hsame]
    exact h
  · have hleft : w.problem.Filled 0 (w.solve keep).1.ledger ∧ (w.solve keep).1.ledger.Tidy ∧
        (¬ w.problem.Fits → (w.solve keep).1.ledger = .empty) := by
      rcases h.ledger_solve hkeys hserves hne keep with hempty | ⟨hp, -, hfill, htidy, -⟩
      · rw [hempty]
        exact ⟨Problem.filled_empty, Ledger.tidy_empty, fun _ => rfl⟩
      · have hfill' : w.problem.Filled 0 (w.solve keep).1.ledger :=
          ⟨hfill.sound, fun o s e ho hlen => hfill.complete o s e ho (Nat.le_trans hlen (Nat.zero_le _))⟩
        exact ⟨hfill', htidy, fun hunfit => absurd hp hunfit⟩
    obtain ⟨hsound, htidy, hunfit⟩ := hleft
    rw [← hproblem] at hsound hunfit
    exact ⟨hproblem ▸ h.problem, hproblem ▸ h.holds, hsound, htidy, hunfit⟩

/-- **Every call** keeps a planner's entries those of kept orders. -/
theorem Truthful.after (h : Truthful p w) {call : Call} (hallowed : w.Allows call) :
    Truthful p (w.after call) := by
  cases call with
  | solve keep => exact h.solve hkeys hserves keep
  | look s => exact h
  | resolve held k => exact h
  | edit a b leg => exact h.edit hallowed

/-- **Any sequence of calls** does. -/
theorem Truthful.afterAll (h : Truthful p w) {calls : List Call} (hcalls : w.AllowsAll calls) :
    Truthful p (w.afterAll calls) := by
  induction calls generalizing w with
  | nil => exact h
  | cons call calls ih => exact ih (h.after hkeys hserves hcalls.1) hcalls.2

/-- **The answer does not depend on the entries**: it is that of a planner without any. -/
theorem Truthful.outcome_solve (h : Truthful p w) (keep keep' : Bool) :
    (w.solve keep).2.outcome = ((ofProblem w.problem).solve keep').2.outcome := by
  by_cases hne : w.problem.keys = []
  · have hlen : w.problem.keys.length = 0 := List.length_eq_zero_iff.2 hne
    have hlen' : (ofProblem w.problem).problem.keys.length = 0 := hlen
    unfold Planner.solve
    rw [if_pos hlen, if_pos hlen']
    rfl
  · by_cases hp : w.problem.Fits
    · obtain ⟨l, hl, ht, hout, -⟩ := solve_of_fits hp hne h.sound h.tidy keep
      obtain ⟨l', hl', ht', hout', -⟩ :=
        solve_of_fits (w := ofProblem w.problem) hp hne Problem.filled_empty Ledger.tidy_empty keep'
      rw [hout, hout']
      exact Problem.conclude_of_filled hl hl' ht ht'
    · obtain ⟨hkeys', hserves'⟩ := h.served hkeys hserves
      obtain ⟨e, he⟩ := solve_of_unfit hkeys' hserves' hp hne
      have hout : (w.solve keep).2 = ⟨[], .error e⟩ := congrArg Prod.snd (he w.ledger keep)
      have hout' : ((ofProblem w.problem).solve keep').2 = ⟨[], .error e⟩ :=
        congrArg Prod.snd (he .empty keep')
      rw [hout, hout']

/-- **When a search begins**, it ends with a plan, or there is no order of the keys. -/
theorem Truthful.answers (h : Truthful p w) (hstart : p.legs.Holds p.start) (hs : p.crew.Serves p.keys)
    (keep : Bool) : (∃ plan, (w.solve keep).2.outcome = .ok plan) ∨
      (w.solve keep).2.outcome = .error (.impasse (.noOrder w.problem.keys.length)) := by
  have hfits : w.problem.Fits := by
    refine ⟨?_, (h.served hkeys hserves).1, ?_⟩
    · rw [h.holds, h.problem]
      exact hstart
    · rw [h.problem]
      exact hs
  have hanswers := Problem.solve_spec hfits keep
  rw [← h.outcome_solve hkeys hserves keep keep] at hanswers
  revert hanswers
  cases (w.solve keep).2.outcome with
  | ok plan =>
    intro _
    exact .inl ⟨plan, rfl⟩
  | error e =>
    intro hanswers
    cases hanswers
    exact .inr rfl

/-- **No entries are left** by a search that fails, nor by one that is not to keep them. -/
theorem Truthful.ledger_eq_empty (h : Truthful p w) (hne : w.problem.keys ≠ []) {keep : Bool}
    (hlost : keep = false ∨ ∃ e, (w.solve keep).2.outcome = .error e) :
    (w.solve keep).1.ledger = .empty := by
  rcases h.ledger_solve hkeys hserves hne keep with hempty | ⟨-, hkeep, -, -, plan, hplan⟩
  · exact hempty
  · rcases hlost with hfalse | ⟨e, he⟩
    · rw [hfalse] at hkeep
      cases hkeep
    · rw [he] at hplan
      cases hplan

end Served

/-- **A planner's answers do not depend on its history.** After any searches, lookups and changes of legs
that were made while it had no entries, a search answers what a new planner for the same legs does. It
leaves no entries behind unless it is to keep them and there is a plan. -/
theorem outcome_afterAll (progress : Bool) {calls : List Call}
    (hkeys : ∀ k ∈ keys, legs.Holds k ∧ k < IdSet.capacity)
    (hserves : ∀ homes n, crew = .perQuadrant homes n → crew.Serves keys)
    (hcalls : (ofProblem (.ofKeys legs keys start crew progress)).AllowsAll calls) :
    let w := (ofProblem (.ofKeys legs keys start crew progress)).afterAll calls
    ∀ keep,
      (∀ keep', (w.solve keep).2.outcome =
        ((ofProblem (.ofKeys w.problem.legs keys start crew progress)).solve keep').2.outcome) ∧
      (keys ≠ [] → keep = false → (w.solve keep).1.ledger = .empty) ∧
      (∀ e, (w.solve keep).2.outcome = .error e → (w.solve keep).1.ledger = .empty) ∧
      (legs.Holds start → crew.Serves keys → (∃ plan, (w.solve keep).2.outcome = .ok plan) ∨
        (w.solve keep).2.outcome = .error (.impasse (.noOrder keys.length))) := by
  intro w keep
  set p := Problem.ofKeys legs keys start crew progress with hp
  have hmem : ∀ k, k ∈ p.keys ↔ k ∈ keys := fun k => List.mem_mergeSort
  have hkeys' : ∀ k ∈ p.keys, p.legs.Holds k ∧ k < IdSet.capacity := fun k hk => hkeys k ((hmem k).1 hk)
  have hserved : crew.Serves keys → p.crew.Serves p.keys :=
    fun hs => hs.of_subset fun k hk => (hmem k).1 hk
  have hserves' : ∀ homes n, p.crew = .perQuadrant homes n → p.crew.Serves p.keys :=
    fun homes n hc => hserved (hserves homes n hc)
  have hw : Truthful p w := (truthful_ofProblem p).afterAll hkeys' hserves' hcalls
  have hsame : Problem.ofKeys w.problem.legs keys start crew progress = w.problem := hw.problem.symm
  have hkeysw : w.problem.keys = keys.mergeSort fun a b => a ≤ b := congrArg Problem.keys hw.problem
  have hlength : w.problem.keys.length = keys.length := by
    rw [hkeysw]
    exact List.length_mergeSort keys
  refine ⟨fun keep' => ?_, fun hne hkeep => ?_, fun e he => ?_, fun hstart hs => ?_⟩
  · rw [hsame]
    exact hw.outcome_solve hkeys' hserves' keep keep'
  · refine hw.ledger_eq_empty hkeys' hserves' (fun hnil => hne ?_) (.inl hkeep)
    rw [hnil] at hlength
    exact List.length_eq_zero_iff.1 hlength.symm
  · refine hw.ledger_eq_empty hkeys' hserves' (fun hnil => ?_) (.inr ⟨e, he⟩)
    -- without keys there is nothing to fail
    unfold Planner.solve at he
    rw [if_pos (List.length_eq_zero_iff.2 hnil)] at he
    cases he
  · rw [← hlength]
    exact hw.answers hkeys' hserves' hstart (hserved hs) keep

/-- A planner for the keys of `gatedPair`, which lie in two quadrants. -/
def ofGatedPair : Planner :=
  ofProblem (.ofKeys gatedPair [1, 0] 2 (.perQuadrant ⟨[(0, 0), (1, 1)]⟩ 4) true)

theorem outcome_afterAll_gatedPair :
    let w := ofGatedPair.afterAll
      [.solve true, .resolve ⟨3⟩ 0, .solve false, .edit 2 0 (some ⟨1, .empty⟩), .solve true]
    w.ledger.size = 4 ∧ (w.solve false).1.ledger = .empty ∧
      ∃ plan, (w.solve false).2.outcome = .ok plan ∧ plan.cost = 4 ∧ plan.states = 4 := by
  have hserves : ofGatedPair.problem.crew.Serves [1, 0] := by
    intro k hk
    rcases List.mem_cons.1 hk with rfl | hk
    · exact ⟨1, by decide⟩
    · obtain rfl := List.mem_singleton.1 hk
      exact ⟨0, by decide⟩
  -- before the edit the entries are gone and the legs are those of the beginning
  have hbare : (ofGatedPair.afterAll [.solve true, .resolve ⟨3⟩ 0, .solve false]).ledger.size = 0 := by
    cbv
  have hlegs : (ofGatedPair.afterAll [.solve true, .resolve ⟨3⟩ 0, .solve false]).problem.legs =
      gatedPair := by cbv
  have hin : (ofGatedPair.afterAll [.solve true, .resolve ⟨3⟩ 0, .solve false]).problem.legs.Holds 2 ∧
      (ofGatedPair.afterAll [.solve true, .resolve ⟨3⟩ 0, .solve false]).problem.legs.Holds 0 := by
    rw [hlegs]
    decide
  have hcalls : ofGatedPair.AllowsAll
      [.solve true, .resolve ⟨3⟩ 0, .solve false, .edit 2 0 (some ⟨1, .empty⟩), .solve true] :=
    ⟨trivial, trivial, trivial, ⟨hin, hbare⟩, trivial, trivial⟩
  have hsize : (ofGatedPair.afterAll [.solve true, .resolve ⟨3⟩ 0, .solve false,
      .edit 2 0 (some ⟨1, .empty⟩), .solve true]).ledger.size = 4 := by cbv
  have hnew : ((ofProblem (.ofKeys (ofGatedPair.afterAll [.solve true, .resolve ⟨3⟩ 0, .solve false,
      .edit 2 0 (some ⟨1, .empty⟩), .solve true]).problem.legs [1, 0] 2
      (.perQuadrant ⟨[(0, 0), (1, 1)]⟩ 4) true)).solve false).2.outcome.map
      (fun plan => (plan.cost, plan.states)) = .ok (4, 4) := by cbv
  have hkeys : ∀ k ∈ [1, 0], gatedPair.Holds k ∧ k < IdSet.capacity := by decide
  obtain ⟨hout, hleft, -⟩ := outcome_afterAll true hkeys (fun _ _ _ => hserves) hcalls false
  obtain ⟨plan, hplan, hanswer⟩ := map_ok_iff.1 hnew
  obtain ⟨hcost, hstates⟩ := Prod.mk.injEq .. ▸ hanswer
  exact ⟨hsize, hleft (by simp) rfl, plan, (hout false).trans hplan, hcost, hstates⟩

end Planner

end GatedMaze
