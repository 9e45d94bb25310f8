import TourForest.Forest.Cut
import TourForest.Forest.Link

/-!
# A short session with a forest

A path over ten vertices is linked, cut and linked again, and every step is told.
-/

namespace TourForest.Demo

/-- A forest with the lines told so far. -/
structure Session where
  forest : Forest
  told : List String

namespace Session

/-- Tells one more line. -/
def tell (s : Session) (line : String) : Session := { s with told := s.told ++ [line] }

/-- Adds an edge and tells of it. -/
def link (s : Session) (u v : Nat) : Traced Session := do
  let s := s.tell s!"Linking {u} and {v}"
  match ← s.forest.link u v with
  | (.ok (), forest) => return { s with forest }
  | (.error refusal, forest) =>
    let reason := refusal.message
    return { s with forest }.tell s!"  failed: {reason}"

/-- Removes an edge and tells of it. -/
def cut (s : Session) (u v : Nat) : Traced Session := do
  let s := s.tell s!"Cutting {u} and {v}"
  return { s with forest := ← s.forest.cut u v }

/-- Tells whether `u` and `v` are connected. -/
def askConnected (s : Session) (u v : Nat) : Traced Session := do
  let answer := if ← s.forest.connected u v then "Yes" else "No"
  let size ← s.forest.treeSize u
  return s.tell s!"Are {u} and {v} connected? {answer} (tree of {u} has {size} vertices)"

/-- Tells the vertices of the tree of `v`. -/
def showTree (s : Session) (v : Nat) : Traced Session := do
  let vertices := Text.list ((← s.forest.treeVertices v).map toString)
  return s.tell s!"Tree of {v}: {vertices}"

end Session

/-- The session on a forest whose path over ten vertices is linked. -/
def onPath (s : Session) : Traced Session := do
  let s := s.tell "Created a path of length 10 (vertices 0 to 9)"
  let s ← s.askConnected 0 9
  let s ← s.cut 4 5
  let s ← s.askConnected 0 9
  let s ← s.askConnected 5 9
  let s ← s.link 0 9
  let s ← s.askConnected 4 5
  let s ← s.cut 0 1
  let s ← s.askConnected 1 4
  s.showTree 0

/-- The lines of the whole session. -/
def lines : Traced (List String) := do
  let (forest, _) ← Forest.build .empty 10 {}
  match ← forest.linkAll .stable ((List.range 9).map fun u => (u, u + 1)) with
  | (.ok (), forest) => return (← onPath ⟨forest, []⟩).told
  | (.error refusal, _) =>
    let reason := refusal.message
    return [s!"batch link failed: {reason}"]

end TourForest.Demo
