import TourForest.Forest.Basic
import TourForest.SumList.Text

/-!
# Forests, written out
-/

namespace TourForest

/-- Settings, written out. -/
def Settings.text (s : Settings) : String :=
  Text.record "ForestConfig"
    [("seed", toString s.seed.toNat),
     ("sequential_threshold", toString s.oneByOneLimit),
     ("cut_ignore_factor", toString s.postponeOneIn.toNat)]

namespace Forest

/-- What element `u` carries for the forest. -/
def elementText (f : Forest) (u : Nat) : String :=
  Text.record "TourData" [("split_mark", toString (f.doomed.getD u false))]

/-- A forest, written out. The stack of free pairs is written from the bottom up. -/
def text (f : Forest) : Except Fault String := do
  let list ← f.tours.text f.elementText
  return Text.record "EulerTourTree"
    [("num_vertices", toString f.vertices),
     ("list", list),
     ("edges", f.edges.text),
     ("free_pairs", Text.list (f.freePairs.reverse.map toString)),
     ("randomness", f.randomness.text),
     ("config", f.settings.text)]

end Forest

end TourForest
