import TourForest.Forest.Basic
import TourForest.SkipList.Sequence
import TourForest.SumList.Query

/-!
# Asking about trees and edges

Two vertices are connected if their tours are one sequence. The vertices of a tree are the elements
of its tour that are vertices, and their number is the sum over the tour.
-/

namespace TourForest.Forest

/-- Are `u` and `v` in one tree? -/
def connected (f : Forest) (u v : Nat) : Except Fault Bool := f.tours.list.sameSequence u v

/-- Are the two of each pair in one tree? -/
def connectedAll (f : Forest) (queries : List (Nat × Nat)) : Except Fault (List Bool) :=
  queries.mapM fun (u, v) => f.connected u v

/-- The number of vertices in the tree of `v`. -/
def treeSize (f : Forest) (v : Nat) : Except Fault Nat := do return (← f.tours.sum v).toNat

/-- The number of vertices in the tree of each vertex. -/
def treeSizes (f : Forest) : Except Fault (List Nat) :=
  (List.range f.vertices).mapM f.treeSize

/-- The vertices in the tree of `v`, in the order of the tour from `v` on. -/
def treeVertices (f : Forest) (v : Nat) : Except Fault (List Nat) := do
  return (← f.tours.list.sequence v).filter (· < f.vertices)

/-- The vertices of each tree, in the order of the tour from the least vertex on. -/
def trees (f : Forest) : Except Fault (List (List Nat)) := do
  return (← groups f.vertices f.treeVertices).map (·.2)

/-- Is there an edge between `u` and `v`? -/
def hasEdge (f : Forest) (u v : Nat) : Except Fault Bool := f.edges.contains u v

/-- The number of edges. -/
def edgeCount (f : Forest) : Nat := f.edges.size

/-- Does edge `e` come before `e'`, or are they equal? -/
def edgeLe (e e' : Nat × Nat) : Bool := e.1 < e'.1 || (e.1 == e'.1 && e.2 ≤ e'.2)

/-- The edges with the smaller end first, in order. -/
def sortedEdges (f : Forest) : List (Nat × Nat) := f.edges.edges.mergeSort edgeLe

end TourForest.Forest
