import TourForest.SkipList.Basic

/-!
# Skip lists with sums

A `SumList` is a skip list in which each element holds a value of 32 bits. The value of element `u`
on level 0 is its own; on level `k + 1` it is the sum of the values on level `k` over the run of
`u`: the elements from `u` up to but not including the next one that reaches level `k + 1`.

While a batch of changes is being repaired, an element whose sums are out of date carries a mark,
the lowest level from which they are. At all other times no element is marked.
-/

namespace TourForest

/-- The least value of 32 bits. -/
def minValue : Int := -0x80000000

/-- The largest value of 32 bits. -/
def maxValue : Int := 0x7FFFFFFF

/-- The sum of two 32-bit values. -/
def addValues (a b : Int) : Except Fault Int :=
  if minValue ≤ a + b ∧ a + b ≤ maxValue then .ok (a + b) else .error .addOverflow

/-- The values of one element on its levels, and what is left of the array that holds them. -/
structure Sums where
  levels : Array Int
  slack : Array Int

/-- A skip list with a value on each level of each element. -/
structure SumList where
  list : SkipList
  sums : Array Sums
  marks : Array (Option Nat)

namespace SumList

/-- The number of elements. -/
def size (a : SumList) : Nat := a.list.size

/-- The height of an element. -/
def height (a : SumList) (u : Nat) : Nat := a.list.height u

/-- The value of element `u` on level `k`. -/
def valueAt (a : SumList) (u k : Nat) : Int := ((a.sums[u]?).bind (·.levels[k]?)).getD 0

/-- The number of levels on which element `u` has values. -/
def depth (a : SumList) (u : Nat) : Nat := (a.sums[u]?).elim 0 (·.levels.size)

/-- The mark of an element. -/
def markAt (a : SumList) (u : Nat) : Option Nat := a.marks.getD u none

/-- Is the value of `u` on level `k` out of date? -/
def outdated (a : SumList) (u k : Nat) : Bool := (a.markAt u).any (· < k)

/-- Sets the value of element `u` on level `k`. -/
def setValue (a : SumList) (u k : Nat) (value : Int) : SumList :=
  { a with sums := a.sums.modify u fun x => { x with levels := x.levels.setIfInBounds k value } }

/-- Sets the mark of an element. -/
def setMark (a : SumList) (u : Nat) (mark : Option Nat) : SumList :=
  { a with marks := a.marks.setIfInBounds u mark }

/-- Detaches element `u` on all its levels and gives it the value `value`. Its neighbours are left
as they are. -/
def detach (a : SumList) (u : Nat) (value : Int) : SumList :=
  { list := a.list.detach u
    sums := a.sums.modify u fun x => { x with levels := x.levels.map fun _ => value }
    marks := a.marks.setIfInBounds u none }

/-- The own value of an element of the arena. -/
def value (a : SumList) (u : Nat) : Except Fault Int := do
  a.list.check u
  return a.valueAt u 0

/-- The own values of all elements. -/
def ownValues (a : SumList) : List Int := (List.range a.size).map (a.valueAt · 0)

end SumList

end TourForest
