/-!
# Faults and refusals

An operation of this library ends in one of three ways.

* It answers.
* It answers with a `Refusal`: a resource has run out. The structure stays usable.
* It stops with a `Fault`: a precondition is broken, an index lies outside the arena, or a sum
  leaves its range. Nothing is said about the structure afterwards.

`Refusal.message` and `Fault.message` hold the wording of both.
-/

namespace TourForest

/-- The largest word of 64 bits, which also stands for the index of no element. -/
def maxWord : Nat := 0xFFFFFFFFFFFFFFFF

/-- A resource that has run out. -/
inductive Refusal where
  /-- An array of `len` items was asked for, and the longest one served has `max`. -/
  | tooLong (len max : Nat)
  /-- All slots of a table of `capacity` slots hold live keys. -/
  | tableFull (capacity : Nat)
  /-- More edges were asked for than there are free pairs of edge elements. -/
  | noFreePairs (requested available : Nat)
deriving DecidableEq

namespace Refusal

/-- The wording of a refusal. -/
def message : Refusal → String
  | tooLong len max => s!"Array of length {len} exceeds maximum supported length {max}"
  | tableFull capacity => s!"Concurrent map is full (capacity {capacity})"
  | noFreePairs requested available =>
    s!"Edge pool exhausted: {requested} edges requested, {available} available"

end Refusal

/-- The reason why an operation stops for good. -/
inductive Fault where
  /-- No element of an arena of `len` elements has this index. The index of no element at all is
  never in range. -/
  | outOfRange (len : Nat) (index : Option Nat)
  /-- A sum leaves the range of its type. -/
  | addOverflow
  /-- A difference falls below zero. -/
  | subOverflow
  /-- A product leaves the range of its type. -/
  | mulOverflow
  /-- One block of memory was asked for with more bytes than any block can have. -/
  | blockTooLarge
  /-- A half of a pair key is the largest 32-bit number, which pair keys leave out. -/
  | halfTooLarge
  /-- A forest was asked for with more vertices than a pair key can tell apart. -/
  | tooManyVertices
  /-- The ends of a new edge lie in one tree already. -/
  | closesCycle (u v : Nat)
  /-- An edge to be cut is not there. -/
  | missingEdge (u v : Nat)
  /-- A new edge has equal ends. -/
  | selfLoop (u : Nat)
  /-- A new edge is there already. -/
  | edgePresent (u v : Nat)
  /-- An array of `len` items was handed back to the shelf of arrays of `size` items. -/
  | foreignArray (len size : Nat)
  /-- The arrays for an element of this height were refused. -/
  | heightRefused (height : Nat) (cause : Refusal)
  /-- A forest has no pair or no neighbour where it counts on one. -/
  | inconsistent
  /-- A walk along links would never end. -/
  | endlessWalk
  /-- The rounds of a batch of cuts would never end. -/
  | endlessRounds
deriving DecidableEq

namespace Fault

/-- The wording of a fault. -/
def message : Fault → String
  | outOfRange len index =>
    let shown := index.getD maxWord
    s!"index out of bounds: the len is {len} but the index is {shown}"
  | addOverflow => "attempt to add with overflow"
  | subOverflow => "attempt to subtract with overflow"
  | mulOverflow => "attempt to multiply with overflow"
  | blockTooLarge => "capacity overflow"
  | halfTooLarge => "assertion failed: self.0 != u32::MAX && self.1 != u32::MAX"
  | tooManyVertices => "assertion failed: num_vertices < u32::MAX as usize"
  | closesCycle u v => s!"link({u}, {v}) closes a cycle"
  | missingEdge u v => s!"cut({u}, {v}) of a missing edge"
  | selfLoop u => s!"self loop ({u}, {u})"
  | edgePresent u v => s!"edge ({u}, {v}) already present"
  | foreignArray len size =>
    s!"assertion `left == right` failed: array not from this allocator\n  left: {len}\n right: {size}"
  | heightRefused height cause =>
    let reason := cause.message
    s!"height {height} out of range: {reason}"
  | inconsistent => "EulerTourTree algorithm incorrect"
  | endlessWalk => "the walk never ends"
  | endlessRounds => "the rounds never end"

end Fault

/-! ## Arithmetic that faults -/

/-- The sum of two 64-bit words. -/
def addWords (a b : Nat) : Except Fault Nat :=
  if a + b ≤ maxWord then .ok (a + b) else .error .addOverflow

/-- The difference of two words. -/
def subWords (a b : Nat) : Except Fault Nat :=
  if b ≤ a then .ok (a - b) else .error .subOverflow

/-- The product of two 64-bit words. -/
def mulWords (a b : Nat) : Except Fault Nat :=
  if a * b ≤ maxWord then .ok (a * b) else .error .mulOverflow

/-! ## Blocks of memory

Items that lie side by side need one block of memory, whose bytes are counted by a signed word. How
many items there can be depends on the bytes that each of them takes.
-/

/-- The largest number of bytes in a block. -/
def largestBlock : Nat := 0x7FFFFFFFFFFFFFFF

/-- Faults unless `count` items of `bytes` bytes each fit into one block. -/
def reserve (count bytes : Nat) : Except Fault Unit :=
  if count * bytes ≤ largestBlock then .ok () else .error .blockTooLarge

end TourForest
