import TourForest.Height
import TourForest.SkipList.Basic

/-!
# Representatives

Each sequence has one element that stands for it, found from any of its elements by walking forward
and up: on a cycle the tallest element, and among the tallest the one of least index; on a chain the
first of the tallest elements. Two elements are in one sequence if they have the same
representative.
-/

namespace TourForest.SkipList

/-- Where the walk forward ends. -/
inductive Forward where
  /-- The walk met element `u` again, the least on its level. -/
  | closed (u : Nat)
  /-- Nothing comes after element `u` on level `k`. -/
  | ended (u k : Nat)
deriving DecidableEq

/-- Walks forward on level `k` from `cur`, and up wherever a taller element is met. `least` is the
least element passed on level `k`. -/
def forward (s : SkipList) : (steps cur k : Nat) → (least : Option Nat) → Except Fault Forward
  | 0, _, _, _ => .error .endlessWalk
  | steps + 1, cur, k, least =>
    if least = some cur then .ok (.closed cur)
    else
      match s.nextAt cur k with
      | none => .ok (.ended cur k)
      | some v =>
        let top := s.height v - 1
        if k < top then s.forward steps v top none
        else s.forward steps v k (some (min cur (least.getD cur)))

/-- Walks backward from `cur` on level `k`, and up wherever a taller element is met. -/
def backward (s : SkipList) : (steps cur k : Nat) → Except Fault Nat
  | 0, _, _ => .error .endlessWalk
  | steps + 1, cur, k =>
    match s.prevAt cur k with
    | none => .ok cur
    | some v => s.backward steps v (s.height v - 1)

/-- The element that stands for the sequence of `u`. A walk that ends passes each element at most
twice on each level. -/
def representative (s : SkipList) (u : Nat) : Except Fault Nat := do
  s.check u
  match ← s.forward (maxHeight * (2 * s.size + 1)) u (s.height u - 1) none with
  | .closed v => return v
  | .ended v k => s.backward (maxHeight * (s.size + 1)) v k

/-- Are `u` and `v` in one sequence? -/
def sameSequence (s : SkipList) (u v : Nat) : Except Fault Bool := do
  return (← s.representative u) == (← s.representative v)

/-- The representatives of all elements. -/
def representatives (s : SkipList) : Except Fault (List Nat) :=
  (List.range s.size).mapM s.representative

end TourForest.SkipList
