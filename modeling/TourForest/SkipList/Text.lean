import TourForest.Outline
import TourForest.SkipList.Build
import TourForest.SkipList.Sequence
import TourForest.Text

/-!
# Skip lists, written out

A list is an outline: one branch per sequence, one leaf per element, in sequence order. An element
shows its height, all items of its array of links, and what it carries.
-/

namespace TourForest

/-- The neighbours on one level, the one before first. -/
def Links.text (l : Links) : String := Text.list [Text.element l.prev, Text.element l.next]

/-- An element that carries what `payload` says. -/
def Tower.text (t : Tower) (payload : String) : String :=
  Text.record "Element"
    [("height", toString t.height),
     ("links", Text.list (t.toArray.toList.map Links.text)),
     ("payload", payload)]

namespace SkipList

/-- Element `u` as a leaf of the outline. -/
def leaf (s : SkipList) (payload : Nat → String) (u : Nat) : String :=
  let shown := (s.towers[u]?).elim "" (·.text (payload u))
  s!"[{u}] {shown}"

/-- The outline of a list. -/
def outline (s : SkipList) (payload : Nat → String) : Except Fault Outline := do
  let branches ← s.sequences
  return {
    title := "SkipList"
    branches := branches.map fun (u, members) => (s!"list of {u}", members.map (s.leaf payload)) }

/-- A list, written out, where `draw` draws its outline. -/
def textBy (s : SkipList) (draw : Outline → String) (payload : Nat → String) : Except Fault String := do
  return draw (← s.outline payload) ++ "\n"

/-- A list, written out. -/
def text (s : SkipList) (payload : Nat → String) : Except Fault String := s.textBy Outline.draw payload

end SkipList

end TourForest
