import TourForest.Fault

/-!
# Skip lists in an arena

A `SkipList` is an arena of elements addressed by index. Each element is a tower of levels, level 0
at the bottom, with links to its neighbours on every level. Level 0 holds the sequences; level `k`
connects only the elements of a sequence that are taller than `k`. A sequence is a chain or a cycle,
on every level.

`height`, `nextAt` and `prevAt` read the arena, `setNext` and `setPrev` change one link. They are
total: outside the arena and above a tower there are no links. Whoever takes an index from outside
checks it with `check`.
-/

namespace TourForest

/-- The neighbours of an element on one level. -/
structure Links where
  prev : Option Nat
  next : Option Nat
deriving DecidableEq

namespace Links

/-- No neighbours. -/
def detached : Links := ⟨none, none⟩

/-- What a new array holds before it is used. -/
def blank : Links := ⟨some 0, some 0⟩

end Links

/-- One element: the links on its levels, and what is left of the array that holds them. -/
structure Tower where
  levels : Array Links
  slack : Array Links

/-- The number of levels an element takes part in. -/
def Tower.height (t : Tower) : Nat := t.levels.size

/-- An arena of elements. -/
structure SkipList where
  towers : Array Tower

namespace SkipList

/-- The number of elements. -/
def size (s : SkipList) : Nat := s.towers.size

/-! ## Reading -/

/-- The height of an element. -/
def height (s : SkipList) (u : Nat) : Nat := (s.towers[u]?).elim 0 Tower.height

/-- The neighbours of element `u` on level `k`. -/
def linksAt (s : SkipList) (u k : Nat) : Links :=
  ((s.towers[u]?).bind (·.levels[k]?)).getD .detached

/-- The element after `u` on level `k`. -/
def nextAt (s : SkipList) (u k : Nat) : Option Nat := (s.linksAt u k).next

/-- The element before `u` on level `k`. -/
def prevAt (s : SkipList) (u k : Nat) : Option Nat := (s.linksAt u k).prev

/-! ## Changing links -/

/-- Changes the links of element `u` on level `k`. -/
def modifyLinks (s : SkipList) (u k : Nat) (f : Links → Links) : SkipList :=
  ⟨s.towers.modify u fun t => { t with levels := t.levels.modify k f }⟩

/-- Sets the element after `u` on level `k`. -/
def setNext (s : SkipList) (u k : Nat) (v : Option Nat) : SkipList :=
  s.modifyLinks u k fun l => { l with next := v }

/-- Sets the element before `u` on level `k`. -/
def setPrev (s : SkipList) (u k : Nat) (v : Option Nat) : SkipList :=
  s.modifyLinks u k fun l => { l with prev := v }

/-- Detaches element `u` on all its levels. Its neighbours are left as they are. -/
def detach (s : SkipList) (u : Nat) : SkipList :=
  ⟨s.towers.modify u fun t => { t with levels := t.levels.map fun _ => .detached }⟩

/-! ## Checked access -/

/-- Faults unless `u` is an element. -/
def check (s : SkipList) (u : Nat) : Except Fault Unit :=
  if u < s.size then .ok () else .error (.outOfRange s.size (some u))

/-- The fault of taking no element for an element. -/
def noElement {α : Type} (s : SkipList) : Except Fault α := .error (.outOfRange s.size none)

/-- The height of an element of the arena. -/
def heightOf (s : SkipList) (u : Nat) : Except Fault Nat := do
  s.check u
  return s.height u

/-- The element after an element of the arena. -/
def successor (s : SkipList) (u : Nat) : Except Fault (Option Nat) := do
  s.check u
  return s.nextAt u 0

/-- The element before an element of the arena. -/
def predecessor (s : SkipList) (u : Nat) : Except Fault (Option Nat) := do
  s.check u
  return s.prevAt u 0

/-- The heights of all elements. -/
def heights (s : SkipList) : List Nat := (List.range s.size).map s.height

/-- The neighbours of all elements on level 0, the one before first. -/
def neighbours (s : SkipList) : List (Option Nat × Option Nat) :=
  (List.range s.size).map fun u => (s.prevAt u 0, s.nextAt u 0)

end SkipList

end TourForest
