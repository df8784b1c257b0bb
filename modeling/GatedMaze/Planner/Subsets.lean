import GatedMaze.IdSet

/-!
# Subsets of a given size

The subsets of ids that have a given number of members, in the lexicographic order of the places
that the members have among the sorted ids. To take an id in, an enumeration of the ids behind it is
opened inside the one at hand, which looks for one member less. An id that a set cannot hold ends the
enumeration. So does a place where there is no id: one is looked for when the number of members is
negative, for then it never comes down to zero. Main statements:

* `extend_zero`, `extend_nil`, `extend_cons`, `extend_of_insert`: the steps of an enumeration.
-/

namespace GatedMaze

/-- The subsets that were found, up to the fault that ended the enumeration, if one did. -/
structure Enumeration where
  subsets : List IdSet
  fault : Option Fault
  deriving DecidableEq, Repr

namespace Enumeration

/-- One enumeration and then another, which is not begun when a fault ended the first. -/
def andThen (x : Enumeration) (y : Unit → Enumeration) : Enumeration :=
  match x.fault with
  | some _ => x
  | none =>
    let rest := y ()
    ⟨x.subsets ++ rest.subsets, rest.fault⟩

/-- The room that is left once one more enumeration is open, if there was any; without a limit
there always is. -/
def opened? : Option Nat → Option (Option Nat)
  | none => some none
  | some 0 => none
  | some (room + 1) => some (some room)

/-- The sets that consist of `chosen` and of `size` more ids from `pool`, the ids from some place on.
`room` says how many more enumerations can be open inside this one, if there is a limit. -/
def extend (room : Option Nat) (pool : List Int) (chosen : IdSet) (size : Int) : Enumeration :=
  if size = 0 then ⟨[chosen], none⟩
  -- no place has enough ids from it on
  else if pool.length < size then ⟨[], none⟩
  else
    match pool with
    | [] => ⟨[], some .placeOutsideList⟩
    | i :: pool =>
      match opened? room with
      | none => ⟨[], some .tooDeep⟩
      | some inner =>
        match chosen.insert i with
        | .error e => ⟨[], some e⟩
        | .ok more =>
          (extend inner pool more (size - 1)).andThen fun _ => extend room pool chosen size

theorem extend_zero (room : Option Nat) (pool : List Int) (chosen : IdSet) :
    extend room pool chosen 0 = ⟨[chosen], none⟩ := by
  unfold extend
  rw [if_pos rfl]

theorem extend_nil (room : Option Nat) (chosen : IdSet) (n : Nat) :
    extend room [] chosen (n + 1 : Nat) = ⟨[], none⟩ := by
  unfold extend
  rw [if_neg (by omega), if_pos (by simp only [List.length_nil]; omega)]

/-- An id that a set can hold is taken in and then passed over. -/
theorem extend_of_insert (room : Option Nat) {i size : Int} {pool : List Int} {chosen more : IdSet}
    (h : chosen.insert i = .ok more) (h0 : size ≠ 0) (hle : size ≤ pool.length + 1) :
    extend room (i :: pool) chosen size =
      match opened? room with
      | none => ⟨[], some .tooDeep⟩
      | some inner =>
        (extend inner pool more (size - 1)).andThen fun _ => extend room pool chosen size := by
  rw [extend, if_neg h0, if_neg (by rw [List.length_cons]; omega), h]

/-- Without a limit an id is taken in and passed over, as long as there are enough ids behind it. -/
theorem extend_cons (i : Int) (pool : List Int) (chosen : IdSet) (n : Nat) :
    extend none (i :: pool) chosen (n + 1 : Nat) =
      if pool.length < n then ⟨[], none⟩
      else
        match chosen.insert i with
        | .error e => ⟨[], some e⟩
        | .ok more =>
          (extend none pool more n).andThen fun _ => extend none pool chosen (n + 1 : Nat) := by
  rw [extend, if_neg (by omega)]
  by_cases h : pool.length < n
  · rw [if_pos h, if_pos (by rw [List.length_cons]; omega)]
  · rw [if_neg h, if_neg (by rw [List.length_cons]; omega),
      show ((n + 1 : Nat) : Int) - 1 = n by omega]
    rfl

end Enumeration

/-- The subsets of ids that have `size` members, for any whole number that is asked for, with so much
room for enumerations inside one another. -/
def subsetsWithin (room : Option Nat) (ids : List Int) (size : Int) : Enumeration :=
  .extend room (ids.mergeSort fun a b => a ≤ b) .empty size

/-- The subsets of ids that have `size` members, for any whole number that is asked for. -/
def subsetsOfSize (ids : List Int) (size : Int) : Enumeration := subsetsWithin none ids size

end GatedMaze
