import TourForest.EdgeIndex
import TourForest.SumList.Batch
import TourForest.SumList.Build

/-!
# Forests as Euler tours

A `Forest` over a fixed set of vertices keeps each tree as a tour: a cycle in a list with sums that
has one element per vertex, of value 1, and one per direction of each edge, of value 0. A vertex
without edges is a cycle of one element. The elements of an edge are a pair; a forest of `n`
vertices has at most `n - 1` edges, and as many pairs. Pairs that are not in use wait in a stack.
-/

namespace TourForest

/-- How a forest goes about its work. -/
structure Settings where
  /-- Decides the heights of elements, and which cuts are postponed. -/
  seed : UInt64 := 0
  /-- Batches of at most this many edges are done one edge at a time. -/
  oneByOneLimit : Nat := 75
  /-- Each round of a batch of cuts postpones about one in this many. Below 2 it postpones none. -/
  postponeOneIn : UInt64 := 100
deriving DecidableEq

/-- A forest of `vertices` vertices. -/
structure Forest where
  vertices : Nat
  /-- The tours of the trees. -/
  tours : SumList
  /-- Which elements belong to edges that are being cut in the current round. -/
  doomed : Array Bool
  /-- The elements of the edges. -/
  edges : EdgeIndex
  /-- The pairs that are not in use, the next one to be used first. -/
  freePairs : List Nat
  /-- Draws which cuts are postponed. -/
  randomness : Random
  settings : Settings

namespace Forest

/-- The number of elements that `n` vertices and the edges between them can take. -/
def arenaSize (n : Nat) : Nat := n + 2 * (n - 1)

/-- The bytes in which an element of a tour says whether it is doomed. -/
def doomedBytes : Nat := 8

/-- A forest of `n` vertices without edges. -/
def build (pools : Pools) (n : Nat) (settings : Settings) : Traced (Forest × Pools) := do
  if WordKey.maxHalf.toNat ≤ n then Traced.fault .tooManyVertices
  else
    let randomness : Random := ⟨settings.seed⟩
    let (tours, pools) ←
      SumList.build pools randomness (arenaSize n) doomedBytes fun i => if i < n then 1 else 0
    let tours ← tours.joinAll ((List.range n).map fun v => (some v, some v))
    Traced.report (.forestCreated n)
    let edges ← EdgeIndex.forVertices n
    let forest : Forest :=
      { vertices := n
        tours := tours
        doomed := Array.replicate (arenaSize n) false
        edges := edges
        freePairs := List.range (n - 1)
        randomness := randomness.fork 1
        settings := settings }
    return (forest, pools)

/-- Hands the arrays of all elements back. -/
def release (f : Forest) (pools : Pools) : Except Fault Pools := f.tours.release pools

/-! ## Elements -/

/-- The element for the other direction of the edge of element `x`. -/
def twin (f : Forest) (x : Nat) : Except Fault Nat := TourForest.twin f.vertices x

/-- Does element `x` belong to an edge that is being cut? -/
def isDoomed (f : Forest) (x : Option Nat) : Except Fault Bool :=
  match x with
  | none => f.tours.list.noElement
  | some x => do
    f.tours.list.check x
    return f.doomed.getD x false

/-- Says whether element `x` belongs to an edge that is being cut. -/
def setDoomed (f : Forest) (x : Nat) (doomed : Bool) : Forest :=
  { f with doomed := f.doomed.setIfInBounds x doomed }

/-- The refusal of more edges than there are free pairs. -/
def shortage? (f : Forest) (requested : Nat) : Option Refusal :=
  let available := f.freePairs.length
  if available < requested then some (.noFreePairs requested available) else none

end Forest

end TourForest
