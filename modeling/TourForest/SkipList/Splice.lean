import TourForest.Height
import TourForest.SkipList.Climb

/-!
# Joining and splitting sequences

`join l r` puts the sequence that begins with `r` behind the one that ends with `l`; if the two are
one, it becomes a cycle. `split u` cuts the sequence of `u` behind `u`. Both change level 0 and then
climb: on each level above, the links across the seam connect the parents of the two sides.
-/

namespace TourForest

/-- Two elements to be joined: one that ends a sequence, and one that begins a sequence. -/
abbrev Seam := Option Nat × Option Nat

namespace SkipList

/-- Connects `l` to `r` on level `k`. An element before `r` stays before it. -/
def connect (s : SkipList) (k l r : Nat) : SkipList :=
  let s := s.setNext l k (some r)
  if (s.prevAt r k).isNone then s.setPrev r k (some l) else s

/-- Connects `l` to `r` from level `k` on, up to a level where `l` has a successor already. -/
def joinFrom (s : SkipList) : (levels k l r : Nat) → Except Fault SkipList
  | 0, _, _, _ => .ok s
  | levels + 1, k, l, r =>
    if (s.nextAt l k).isSome then .ok s
    else do
      let s := s.connect k l r
      match ← s.leftParent l k, ← s.rightParent r k with
      | some l, some r => s.joinFrom levels (k + 1) l r
      | _, _ => return s

/-- Puts the sequence that begins with `r` behind the one that ends with `l`. Nothing happens if one
of them is no element, or if `l` has a successor. -/
def join (s : SkipList) (l r : Option Nat) : Except Fault SkipList :=
  match l, r with
  | some l, some r => do
    s.check l
    if (s.nextAt l 0).isSome then return s
    s.check r
    s.joinFrom maxHeight 0 l r
  | _, _ => .ok s

/-- Cuts the sequence of `u` behind `u` from level `k` on. -/
def splitFrom (s : SkipList) : (levels k u : Nat) → Except Fault SkipList
  | 0, _, _ => .ok s
  | levels + 1, k, u =>
    match s.nextAt u k with
    | none => .ok s
    | some v => do
      let s := (s.setNext u k none).setPrev v k none
      match ← s.leftParent u k with
      | some u => s.splitFrom levels (k + 1) u
      | none => return s

/-- Cuts the sequence of `u` behind `u`. The answer is the element that was after `u`. -/
def split (s : SkipList) (u : Option Nat) : Except Fault (Option Nat × SkipList) :=
  match u with
  | none => .ok (none, s)
  | some u => do
    s.check u
    let after := s.nextAt u 0
    return (after, ← s.splitFrom maxHeight 0 u)

/-! ## Several at once -/

/-- Closes several seams, one after the other. -/
def joinAll (s : SkipList) : List Seam → Except Fault SkipList
  | [] => .ok s
  | (l, r) :: rest => do (← s.join l r).joinAll rest

/-- Splits behind several elements, one after the other. The answers are the elements that were
after them. -/
def splitAll (s : SkipList) : List (Option Nat) → Except Fault (List (Option Nat) × SkipList)
  | [] => .ok ([], s)
  | u :: rest => do
    let (after, s) ← s.split u
    let (others, s) ← s.splitAll rest
    return (after :: others, s)

end SkipList

end TourForest
