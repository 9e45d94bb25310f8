import TourForest.SkipList.Splice
import TourForest.SumList.Walk

/-!
# Bringing sums up to date

After a split the run of every ancestor of the split point ends there, and one walk to the left and
up (`closeRuns`) recomputes them all.

After joins and changes of values, `repair` works in two steps. First every changed element claims
its ancestors: it marks them up to one that has no left parent, the top, or up to one that is marked
already. Then the values below each top are recomputed from the bottom up, along the marks, and the
marks are taken off. Below level `cutoff` the marked elements of a run are visited one after the
other, as the walk along the run meets them; above it they are collected first and taken up in the
order that a `Schedule` gives them.
-/

namespace TourForest.SumList

/-! ## After a split -/

/-- The value of an element on level `k`, and nothing where there is no element. -/
def valueOf (a : SumList) (u : Option Nat) (k : Nat) : Int := u.elim 0 (a.valueAt · k)

/-- The way to the left on level `k`, up to an element that reaches level `k + 1`. -/
def leftward (a : SumList) (k : Nat) : Walk (Option Nat) where
  stride
    | none => .ok .stop
    | some u => .ok <|
      if k + 1 < a.height u then .stop
      else
        let before := a.list.prevAt u k
        .go (a.valueOf before k) before

/-- Goes on with `closeRuns` at `u` on level `k`, where `sum` is the sum from `u` to the end. -/
def closeRunsFrom (a : SumList) : (levels k u : Nat) → (sum : Int) → Except Fault SumList
  | 0, _, _, _ => .ok a
  | levels + 1, k, u, sum => do
    match ← (a.leftward k).finish (a.size + 1) (some u) sum with
    | (none, _) => return a
    | (some v, sum) => (a.setValue v (k + 1) sum).closeRunsFrom levels (k + 1) v sum

/-- Recomputes the sums whose run ends at `u`, the last element of its sequence. -/
def closeRuns (a : SumList) (u : Nat) : Except Fault SumList :=
  a.closeRunsFrom maxHeight 0 u (a.valueAt u 0)

/-! ## Claiming ancestors -/

/-- Goes on with `claim` at element `u`, entered on level `k`. -/
def claimFrom (a : SumList) : (steps k u : Nat) → Except Fault (Option Nat × SumList)
  | 0, _, _ => .error .endlessWalk
  | steps + 1, k, u =>
    match a.markAt u with
    | some mark => .ok (none, a.setMark u (some (min mark k)))
    | none => do
      let a := a.setMark u (some k)
      match ← a.list.leftParent u (a.height u - 1) with
      | none => return (some u, a)
      | some p => a.claimFrom steps (a.height u) p

/-- Marks `u` and its ancestors up to the top, which is the answer, or up to one that is marked
already. -/
def claim (a : SumList) (u : Option Nat) : Except Fault (Option Nat × SumList) :=
  match u with
  | none => a.list.noElement
  | some u => do
    a.list.check u
    a.claimFrom (maxHeight + 1) 0 u

/-- Claims the ancestors of several elements, one after the other. The answer has the tops. -/
def claimAll (a : SumList) : List (Option Nat) → Except Fault (List Nat × SumList)
  | [] => .ok ([], a)
  | u :: rest => do
    let (top, a) ← a.claim u
    let (tops, a) ← a.claimAll rest
    return (top.toList ++ tops, a)

/-! ## Recomputing from the bottom up -/

/-- The run of an element on one level, without that element. -/
structure Run where
  /-- All its elements, in order. Some occur again if the run goes round without an end. -/
  elements : List Nat
  /-- Whether it ends, at the last element of a sequence or before a taller element. -/
  ends : Bool

/-- The elements of a run that ends. -/
def Run.finished (r : Run) : Except Fault (List Nat) :=
  if r.ends then .ok r.elements else .error .endlessWalk

/-- The elements from `cur` on level `k` until one reaches level `k + 1`. -/
def runFrom (a : SumList) (k : Nat) : (steps : Nat) → (cur : Option Nat) → Run
  | _, none => ⟨[], true⟩
  | 0, some _ => ⟨[], false⟩
  | steps + 1, some v =>
    if k + 1 < a.height v then ⟨[], true⟩
    else
      let rest := a.runFrom k steps (a.list.nextAt v k)
      ⟨v :: rest.elements, rest.ends⟩

/-- The run of `u` on level `k`, without `u`. As many steps as there are elements reach all of it,
the turning part of a run without an end included. -/
def run (a : SumList) (u k : Nat) : Run :=
  a.runFrom k a.size (a.list.nextAt u k)

/-- Recomputes the value of `u` on level `k + 1`, where `run` is the run below it without `u`, and
takes the mark of `u` off if that is its top level. -/
def recompute (a : SumList) (u k : Nat) (run : List Nat) : Except Fault SumList := do
  let sum ← run.foldlM (fun sum v => addValues sum (a.valueAt v k)) (a.valueAt u k)
  let a := a.setValue u (k + 1) sum
  return if a.height u = k + 2 then a.setMark u none else a

/-- Brings the value of `u` on level `k` up to date, one element of its run after the other. The
elements are brought up to date as they are met, so a fault in one of them comes before the fault
that the run has no end. -/
def refreshInOrder : (k : Nat) → SumList → (u : Nat) → Except Fault SumList
  | 0, a, u => .ok (if a.height u = 1 then a.setMark u none else a)
  | k + 1, a, u => do
    let a ← if (a.markAt u).all (· < k + 1) then refreshInOrder k a u else pure a
    let run := a.run u k
    let a ← run.elements.foldlM
      (fun a v => if a.outdated v (k + 1) then refreshInOrder k a v else pure a) a
    a.recompute u k (← run.finished)

/-- A way to take up elements that wait to be visited: each of them once, in any order. -/
structure Schedule where
  order : List Nat → List Nat
  perm : ∀ pending, (order pending).Perm pending

/-- The way that takes up the last element first. -/
def Schedule.lastFirst : Schedule := ⟨List.reverse, List.reverse_perm⟩

/-- Brings the value of `u` on level `k` up to date. Above level `cutoff` the outdated elements of
the run are collected first, and then taken up as the schedule has it. -/
def refresh (cutoff : Nat) (schedule : Schedule) :
    (k : Nat) → SumList → (u : Nat) → Except Fault SumList
  | 0, a, u => refreshInOrder 0 a u
  | k + 1, a, u =>
    if k + 1 ≤ cutoff then refreshInOrder (k + 1) a u
    else do
      let run ← (a.run u k).finished
      let pending := (u :: run).filter (a.outdated · (k + 1))
      let a ← (schedule.order pending).foldlM (refresh cutoff schedule k) a
      a.recompute u k run

/-- The level up to which runs are visited in order. -/
def inOrderLevels : Nat := 6

/-- Brings the sums of the ancestors of several elements up to date. -/
def repair (a : SumList) (changed : List (Option Nat)) : Except Fault SumList := do
  let (tops, a) ← a.claimAll changed
  tops.foldlM (fun a top => refresh inOrderLevels .lastFirst (a.height top - 1) a top) a

end TourForest.SumList
