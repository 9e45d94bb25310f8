import TourForest.SkipList.Build
import TourForest.SumList.Basic

/-!
# Building and taking down lists with sums

The values of an element live in an array from a pool of their own, next to the array of its links.
For each element the array of links is taken first. Taking a list down hands back all arrays of
values, then all arrays of links, in element order.
-/

namespace TourForest

/-- The pools that lists draw their arrays from. -/
structure Pools where
  links : Pool Links
  values : Pool Int

/-- Pools with nothing on their shelves. -/
def Pools.empty : Pools := ⟨.empty, .empty⟩

namespace Sums

/-- The value `value` on all levels, in array `a`. -/
def ofArray (height : Nat) (value : Int) (a : Array Int) : Sums :=
  ⟨Array.replicate height value, a.extract height a.size⟩

/-- All items of the array of values. -/
def toArray (x : Sums) : Array Int := x.levels ++ x.slack

end Sums

namespace SumList

/-- Adds an element. -/
def push (a : SumList) (t : Tower) (x : Sums) : SumList :=
  { list := ⟨a.list.towers.push t⟩
    sums := a.sums.push x
    marks := a.marks.push none }

/-- Adds detached elements of the given heights, with values by index. -/
def grow (value : Nat → Int) (a : SumList) (pools : Pools) : List Nat → Traced (SumList × Pools)
  | [] => return (a, pools)
  | height :: rest => do
    let (t, links) ← Tower.raise pools.links height
    let (x, values) ← pools.values.arrayFor 0 height
    let x := Sums.ofArray height (value a.size) x
    grow value (a.push t x) ⟨links, values⟩ rest

/-- The bytes that sums add to an element: where its values are, and its mark. -/
def sumBytes : Nat := 24

/-- A list of `len` detached elements that carry `load` bytes each, with values by index. -/
def build (pools : Pools) (r : Random) (len load : Nat) (value : Nat → Int) :
    Traced (SumList × Pools) := do
  reserve len (SkipList.elementBytes + sumBytes + load)
  grow value ⟨⟨#[]⟩, #[], #[]⟩ pools (drawnHeights r len)

/-- Hands the arrays of all elements back. -/
def release (a : SumList) (pools : Pools) : Except Fault Pools := do
  let values ← a.sums.toList.foldlM (fun pool x => pool.free x.toArray) pools.values
  return ⟨← a.list.release pools.links, values⟩

end SumList

end TourForest
