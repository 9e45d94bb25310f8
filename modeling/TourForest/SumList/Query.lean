import TourForest.SkipList.Representative
import TourForest.SumList.Walk

/-!
# Asking for sums

The sum over a sequence goes along its top level, and down the levels over what comes before the
first of the tallest elements. The sum from one element to another lets the two ends approach each
other, on the highest level that both reach.
-/

namespace TourForest.SumList

/-- The way along level `k` up to `root`, or to the end of the level. -/
def ahead (a : SumList) (root k : Nat) : Walk (Option Nat) where
  stride
    | none => .ok .stop
    | some v => .ok (if v = root then .stop else .go (a.valueAt v k) (a.list.nextAt v k))

/-- The way over what comes before an element on a level, then over what comes before the last
element reached one level below, and so on to the bottom. Places are levels with elements. -/
def behind (a : SumList) : Walk (Nat × Nat) where
  stride
    | (k, cur) => .ok <|
      match a.list.prevAt cur k, k with
      | some v, k => .go (a.valueAt v k) (k, v)
      | none, k + 1 => .go 0 (k, cur)
      | none, 0 => .stop

/-- The sum of the values of the sequence of `u`. -/
def sum (a : SumList) (u : Nat) : Except Fault Int := do
  let root ← a.list.representative u
  let top := a.height root - 1
  let (last, sum) ←
    (a.ahead root top).finish (a.size + 1) (a.list.nextAt root top) (a.valueAt root top)
  if last.isSome then return sum
  else return (← a.behind.finish ((top + 1) * a.size) (top, root) sum).2

/-- The way of two elements towards each other, where the own value of the right one is in the sum
already. The lower one moves, or the left one if they are as tall as each other. -/
def between (a : SumList) : Walk (Option Nat × Nat) where
  stride
    | (none, _) => a.list.noElement
    | (some l, r) =>
      if l = r then .ok .stop
      else
        let k := min (a.height l) (a.height r) - 1
        if k = a.height l - 1 then .ok (.go (a.valueAt l k) (a.list.nextAt l k, r))
        else
          match a.list.prevAt r k with
          | some r => .ok (.go (a.valueAt r k) (some l, r))
          | none => a.list.noElement

/-- The sum of the values from `l` to `r`, both included, where `l` is at or before `r` in one
sequence. An end never moves to a lower element, so once it comes back to an element it is for ever
the lower one, and the other end has moved for the last time: there are at most twice as many places
as elements. -/
def sumOver (a : SumList) (l r : Nat) : Except Fault Int := do
  a.list.check r
  if l ≠ r then a.list.check l
  return (← a.between.finish (2 * (a.size + 1)) (some l, r) (a.valueAt r 0)).2

/-- The sums of the sequences of all elements. -/
def allSums (a : SumList) : Except Fault (List Int) := (List.range a.size).mapM a.sum

end TourForest.SumList
