import TourForest.SkipList.Basic

/-!
# Climbing to the next level

From an element on level `k`, the left parent is the first element at or before it that also reaches
level `k + 1`, and the right parent the first at or after it. A climb comes to nothing when the
level ends or leads back to where it began. A level has no more elements than the arena, so a climb
that takes more steps than that goes round in a loop it never leaves.
-/

namespace TourForest.SkipList

/-- Goes on from `cur` by `step` until an element is taller than `k + 1`. -/
def climb (s : SkipList) (step : Nat → Option Nat) (start k : Nat) :
    (steps cur : Nat) → Except Fault (Option Nat)
  | 0, _ => .error .endlessWalk
  | steps + 1, cur =>
    if k + 1 < s.height cur then .ok (some cur)
    else
      match step cur with
      | none => .ok none
      | some v => if v = start then .ok none else s.climb step start k steps v

/-- The first element at or before `u` on level `k` that reaches level `k + 1`. -/
def leftParent (s : SkipList) (u k : Nat) : Except Fault (Option Nat) :=
  s.climb (s.prevAt · k) u k s.size u

/-- The first element at or after `u` on level `k` that reaches level `k + 1`. -/
def rightParent (s : SkipList) (u k : Nat) : Except Fault (Option Nat) :=
  s.climb (s.nextAt · k) u k s.size u

end TourForest.SkipList
