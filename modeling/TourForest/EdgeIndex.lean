import TourForest.KeyTable
import TourForest.Twin

/-!
# From edges to their elements

An `EdgeIndex` holds one entry per edge: under the smaller and the larger end, the element of the
direction from the smaller to the larger end. The element of the other direction is the twin. Ends
are compared as they are given; each is cut to 32 bits for the table afterwards.
-/

namespace TourForest

/-- The elements of the edges between `vertices` vertices. -/
structure EdgeIndex where
  table : KeyTable (UInt32 × UInt32)
  vertices : Nat

namespace EdgeIndex

/-- An empty index for a forest of `n` vertices. -/
def forVertices (n : Nat) : Except Fault EdgeIndex := do
  return ⟨← KeyTable.withRoom _ (← mulWords 2 (n - 1)), n⟩

/-- The key of an edge, the same for both directions. -/
def key (u v : Nat) : UInt32 × UInt32 := ((min u v).toUInt32, (max u v).toUInt32)

/-- The element that is stored for direction `(u, v)` with element `x`, and back again. -/
def orient (e : EdgeIndex) (u v x : Nat) : Except Fault Nat :=
  if u < v then .ok x else twin e.vertices x

/-- Enters an edge whose direction `(u, v)` has element `uv`. The answer says whether the edge is
new. -/
def insert (e : EdgeIndex) (u v uv : Nat) : Except Fault (Except Refusal Bool × EdgeIndex) := do
  let stored ← e.orient u v uv
  let (reply, table) ← e.table.insert (key u v) stored
  return (reply, { e with table })

/-- The element of direction `(u, v)`. -/
def find? (e : EdgeIndex) (u v : Nat) : Except Fault (Option Nat) := do
  match ← e.table.find? (key u v) with
  | some stored => return some (← e.orient u v stored)
  | none => return none

/-- Is the edge between `u` and `v` there? -/
def contains (e : EdgeIndex) (u v : Nat) : Except Fault Bool := e.table.contains (key u v)

/-- Takes an edge out. The answer says whether it was there. -/
def erase (e : EdgeIndex) (u v : Nat) : Except Fault (Bool × EdgeIndex) := do
  let (found, table) ← e.table.erase (key u v)
  return (found, { e with table })

/-- The number of edges. -/
def size (e : EdgeIndex) : Nat := e.table.size

/-- The edges with the smaller end first, in the order of the table. -/
def edges (e : EdgeIndex) : List (Nat × Nat) :=
  e.table.entries.map fun (k, _) => (k.1.toNat, k.2.toNat)

/-- An index, written out in the order of the table. -/
def text (e : EdgeIndex) : String := e.table.text

end EdgeIndex

end TourForest
