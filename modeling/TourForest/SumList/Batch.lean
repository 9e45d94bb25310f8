import TourForest.SumList.Repair

/-!
# Batches of joins, splits and changes of values

A batch changes all links or values first and brings the sums up to date afterwards. Its entries run in the
order of the list; any other order would do, but for what several entries about one element are answered or leave.
-/

namespace TourForest.SumList

/-- Closes several seams. -/
def joinAll (a : SumList) (seams : List Seam) : Except Fault SumList := do
  let list ← a.list.joinAll seams
  repair { a with list } (seams.map Prod.fst)

/-- Joins the sequence that ends with `l` to the one that begins with `r`. -/
def join (a : SumList) (l r : Option Nat) : Except Fault SumList := a.joinAll [(l, r)]

/-- Recomputes the sums whose run ends at `u`, unless that was done in this batch, as the mark of
`u` says. -/
def closeRunsOnce (a : SumList) (u : Option Nat) : Except Fault SumList :=
  match u with
  | none => a.list.noElement
  | some u => do
    a.list.check u
    if (a.markAt u).isNone then (a.setMark u (some 0)).closeRuns u else return a

/-- Splits behind all given elements, in the order of the list. The answers are the elements that were
after them; a second split behind an element finds none. -/
def splitAll (a : SumList) (points : List (Option Nat)) :
    Except Fault (List (Option Nat) × SumList) := do
  let (after, list) ← a.list.splitAll points
  let a ← points.foldlM closeRunsOnce { a with list }
  return (after, points.foldl (fun a u => u.elim a (a.setMark · none)) a)

/-- Splits behind an element. The answer is the element that was after it. -/
def split (a : SumList) (u : Option Nat) : Except Fault (Option Nat × SumList) := do
  let (after, a) ← a.splitAll [u]
  return (after.head?.join, a)

/-- Gives elements new values, in the order of the list, so that of several values for one element the
last one stays. -/
def setValues (a : SumList) (updates : List (Nat × Int)) : Except Fault SumList := do
  let a ← updates.foldlM
    (fun (a : SumList) (x : Nat × Int) => do
      a.list.check x.1
      return a.setValue x.1 0 x.2) a
  a.repair (updates.map fun x => some x.1)

end TourForest.SumList
