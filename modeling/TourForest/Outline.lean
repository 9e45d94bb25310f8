/-!
# Outlines

A title, branches below it, and leaves below each branch. `draw` draws them as a tree with one line per
entry. The last entry of a level has a corner in front of it, every other one a fork, and the line down
from a fork goes past the leaves of its branch.
-/

namespace TourForest

/-- A title with branches of leaves. -/
structure Outline where
  title : String
  branches : List (String × List String)

namespace Outline

/-- The sign in front of an entry. -/
def sign (isLast : Bool) : String := if isLast then "└╼ " else "├╼ "

/-- What stands in front of the leaves of a branch. -/
def margin (isLast : Bool) : String := if isLast then "  " else "│ "

/-- Tags each item with whether it is the last one. -/
def markLast {α : Type} : List α → List (Bool × α)
  | [] => []
  | [a] => [(true, a)]
  | a :: rest => (false, a) :: markLast rest

/-- The lines of one branch. -/
def branchLines (isLast : Bool) (head : String) (leaves : List String) : List String :=
  (sign isLast ++ head) ::
    (markLast leaves).map fun (lastLeaf, leaf) => margin isLast ++ sign lastLeaf ++ leaf

/-- The lines of an outline. -/
def lines (o : Outline) : List String :=
  o.title ::
    (markLast o.branches).flatMap fun (isLast, head, leaves) => branchLines isLast head leaves

/-- The outline as text, one line below the other. -/
def draw (o : Outline) : String := "\n".intercalate o.lines

end Outline

end TourForest
