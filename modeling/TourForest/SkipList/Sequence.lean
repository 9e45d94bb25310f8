import TourForest.Grouping
import TourForest.SkipList.Basic

/-!
# Sequences

The sequence of an element lists the elements along level 0, from the first one of a chain, or once
around from the element itself on a cycle.
-/

namespace TourForest.SkipList

/-- Goes back from `cur` to the first element of the sequence of `u`, or to `u` on a cycle. -/
def firstFrom (s : SkipList) (u : Nat) : (steps cur : Nat) → Except Fault Nat
  | 0, _ => .error .endlessWalk
  | steps + 1, cur =>
    match s.prevAt cur 0 with
    | none => .ok cur
    | some p => if p = u then .ok u else s.firstFrom u steps p

/-- Lists the elements from `cur` on until the level ends or leads back to `first`. -/
def restFrom (s : SkipList) (first : Nat) :
    (steps : Nat) → (cur : Option Nat) → Except Fault (List Nat)
  | _, none => .ok []
  | 0, some _ => .error .endlessWalk
  | steps + 1, some v =>
    if v = first then .ok []
    else do return v :: (← s.restFrom first steps (s.nextAt v 0))

/-- The elements of the sequence of `u` in order. -/
def sequence (s : SkipList) (u : Nat) : Except Fault (List Nat) := do
  s.check u
  let first ← s.firstFrom u s.size u
  return first :: (← s.restFrom first s.size (s.nextAt first 0))

/-- All sequences, each under the element of least index in it. -/
def sequences (s : SkipList) : Except Fault (List (Nat × List Nat)) := groups s.size s.sequence

end TourForest.SkipList
