import GatedMaze.Fault

/-!
# What there is room for

The slots of a table and the agents of a crew are counted by whole numbers of 64 bits with a sign, and
stored as long as there are not too many of them. Main statement:

* `roomFault?_eq_none_iff`: only a number that can count, and that is not too large, has room.
-/

namespace GatedMaze

/-- Whether a number can count items, or places from either end of them. -/
def isCountable (n : Int) : Bool := -0x8000000000000000 ≤ n && n < 0x8000000000000000

/-- The number of items from which on there is no room for them. -/
def roomLimit : Int := 0x40000000

/-- Why so many items cannot be stored, if they cannot. -/
def roomFault? (n : Int) : Option Fault :=
  if !isCountable n then some .uncountable
  else if roomLimit ≤ n then some .outOfMemory
  else none

/-- **Only a number that can count, and that is not too large, has room.** -/
theorem roomFault?_eq_none_iff (n : Int) :
    roomFault? n = none ↔ -0x8000000000000000 ≤ n ∧ n < roomLimit := by
  unfold roomFault? isCountable roomLimit
  split
  · next h =>
    simp only [Bool.not_eq_true', Bool.and_eq_false_iff, decide_eq_false_iff_not] at h
    simp only [reduceCtorEq, false_iff]
    omega
  · next h =>
    simp only [Bool.not_eq_true', Bool.and_eq_false_iff, decide_eq_false_iff_not] at h
    split
    · simp only [reduceCtorEq, false_iff]
      omega
    · simp only [true_iff]
      omega

end GatedMaze
