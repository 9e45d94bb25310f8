import TourForest.Fault

/-!
# Elements of edges

In an arena for `n` vertices the first `n` elements are the vertices. The elements after them come
in pairs, one pair per edge: pair `p` is elements `n + 2p` and `n + 2p + 1`, one for each direction
of the edge. The two are each other's twins.
-/

namespace TourForest

/-- The element for the other direction of the edge of element `x`. -/
def twin (n x : Nat) : Except Fault Nat := do addWords n ((← subWords x n) ^^^ 1)

/-- The pair that element `x` belongs to. -/
def pairOf (n x : Nat) : Except Fault Nat := do return (← subWords x n) / 2

/-- The two elements of pair `p`. -/
def elementsOfPair (n p : Nat) : Nat × Nat := (n + 2 * p, n + 2 * p + 1)

end TourForest
