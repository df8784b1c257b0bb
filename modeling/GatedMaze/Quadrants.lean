import GatedMaze.Leg
import GatedMaze.Progress

/-!
# Quadrants

With several agents every key belongs to one of them: the keys are grouped into regions, each the
home of one agent. A region consists of its leading key and all keys that have a leg with it; the
first key left over leads the next region. Main statement:

* `Homes.of?_assign`: an assignment changes the quadrant of its own key only.
-/

namespace GatedMaze

/-- The quadrant of each key that has one. -/
structure Homes where
  entries : List (Int × Int)
  deriving DecidableEq, Repr

namespace Homes

/-- No key has a quadrant. -/
def empty : Homes := ⟨[]⟩

/-- The quadrant of a key. -/
def of? (h : Homes) (k : Int) : Option Int := h.entries.lookup k

/-- Whether a key has a quadrant. -/
def holds (h : Homes) (k : Int) : Bool := (h.of? k).isSome

/-- The quadrants with that of one key changed. -/
def assign (h : Homes) (k q : Int) : Homes :=
  if h.holds k then ⟨h.entries.map fun e => if e.1 = k then (k, q) else e⟩
  else ⟨h.entries ++ [(k, q)]⟩

theorem lookup_map_quadrant (k q j : Int) (es : List (Int × Int)) :
    (es.map fun e => if e.1 = k then (k, q) else e).lookup j =
      if k = j then (es.lookup j).map fun _ => q else es.lookup j := by
  induction es with
  | nil => simp
  | cons e es ih =>
    obtain ⟨a, r⟩ := e
    rw [List.map_cons]
    by_cases ha : a = k
    · subst ha
      rw [if_pos rfl, List.lookup_cons, List.lookup_cons, ih]
      by_cases hj : a = j
      · subst hj; simp
      · have : (j == a) = false := beq_eq_false_iff_ne.2 fun h => hj h.symm
        simp [this, hj]
    · rw [if_neg ha, List.lookup_cons, List.lookup_cons, ih]
      cases h : j == a
      · rfl
      · have : k ≠ j := fun e => ha (e.trans (beq_iff_eq.1 h)).symm
        simp [this]

/-- **An assignment changes the quadrant of its own key only.** -/
theorem of?_assign (h : Homes) (k q j : Int) :
    (h.assign k q).of? j = if k = j then some q else h.of? j := by
  unfold assign of?
  split
  · next hk =>
    rw [lookup_map_quadrant]
    split
    · next e =>
      subst e
      obtain ⟨r, hr⟩ := Option.isSome_iff_exists.1 hk
      unfold of? at hr
      rw [hr, Option.map_some]
    · rfl
  · next hk =>
    -- the key is new, so its entry comes last and is the only one
    rw [List.lookup_append]
    by_cases e : k = j
    · subst e
      have : h.entries.lookup k = none :=
        Option.not_isSome_iff_eq_none.1 (by simpa only [holds, of?] using hk)
      simp [this]
    · have : (j == k) = false := beq_eq_false_iff_ne.2 fun h => e h.symm
      simp [List.lookup_cons, this, e]

/-- The quadrants that pairs assign in turn; of two for one key the later counts. -/
def ofList (pairs : List (Int × Int)) : Homes := pairs.foldl (fun h e => h.assign e.1 e.2) empty

/-- The assigned keys, ascending, each with its quadrant. -/
def sorted (h : Homes) : List (Int × Int) := h.entries.mergeSort fun a b => a.1 ≤ b.1

/-- How many keys each of the first `n` quadrants has. -/
def sizes (h : Homes) (n : Nat) : List Nat :=
  (List.range n).map fun (q : Nat) => h.entries.countP fun e => e.2 == Int.ofNat q

/-- Puts every key without a quadrant that `lead` is or has a leg with into quadrant `q`, key by
key, and finds the first key that it leaves over. -/
def gather (legs : LegTable) (lead q : Int) :
    List Int → Homes → Option Int → Except Fault (Homes × Option Int)
  | [], h, next => .ok (h, next)
  | k :: ks, h, next =>
    if h.holds k then gather legs lead q ks h next
    else if k = lead then gather legs lead q ks (h.assign k q) next
    else
      match legs.get lead k with
      | .error e => .error e
      | .ok (some _) => gather legs lead q ks (h.assign k q) next
      | .ok none => gather legs lead q ks h (next <|> some k)

/-- Fills so many more quadrants from number `q` on, while there is a key to lead the next. -/
def fill (legs : LegTable) (keys : List Int) : Nat → Int → Option Int → Homes → Except Fault Homes
  | 0, _, _, h => .ok h
  | _ + 1, _, none, h => .ok h
  | n + 1, q, some lead, h =>
    match gather legs lead q keys h none with
    | .error e => .error e
    | .ok (h, next) => fill legs keys n (q + 1) next h

end Homes

/-- The quadrants of keys, of which there may be so many; refused when keys are left over. -/
def assignQuadrants (keyIds : List Int) (legs : LegTable) (quadrants : Int) :
    Except Fault Homes := do
  let keys := keyIds.mergeSort fun a b => a ≤ b
  let homes ← Homes.fill legs keys quadrants.toNat 0 keys.head? .empty
  match keys.filter fun k => !homes.holds k with
  | [] => pure homes
  | left => throw (.maze (.unassigned left quadrants))

/-- The quadrants of keys, with a note of their sizes. -/
def notedQuadrants (keyIds : List Int) (legs : LegTable) (quadrants : Int) : Noted Note Homes := do
  let homes ← Noted.ofExcept (assignQuadrants keyIds legs quadrants)
  Noted.note (.quadrants (homes.sizes quadrants.toNat))
  pure homes

end GatedMaze
