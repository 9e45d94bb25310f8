import TourForest.Label
import TourForest.SumList.Build

/-!
# Lists with sums, written out

An element shows all items of its array of values, its mark, and what it carries for its owner.
-/

namespace TourForest.SumList

/-- What element `u` holds, where `inner` is what it carries for its owner. -/
def payloadText (a : SumList) (inner : String) (u : Nat) : String :=
  let values := (a.sums[u]?).elim [] (·.toArray.toList)
  Text.record "Augmented"
    [("values", Text.list (values.map toString)),
     ("update_level", ((a.markAt u).map toString).getD "-"),
     ("inner", inner)]

/-- A list, written out. -/
def text (a : SumList) (inner : Nat → String) : Except Fault String :=
  a.list.text fun u => a.payloadText (inner u) u

/-- A list whose elements carry labels, written out. -/
def labelledText (a : SumList) (label : Label) : Except Fault String :=
  a.text fun u => label.text u (a.height u)

end TourForest.SumList
