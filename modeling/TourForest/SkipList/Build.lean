import TourForest.Height
import TourForest.Pool
import TourForest.SkipList.Basic

/-!
# Building and taking down skip lists

Heights are drawn from a generator. The links of each element live in an array from a pool, whose
items beyond the height are left as they come. Taking a list down hands all arrays back in element
order.

All elements lie in one block of memory, and a list that is too long for any block is not begun.
-/

namespace TourForest

/-- The array for an element of a height, which no pool refuses for the heights that are drawn. -/
def Pool.arrayFor {α : Type} (p : Pool α) (blank : α) (height : Nat) :
    Traced (Array α × Pool α) := do
  match ← p.allocate blank height with
  | (.ok a, p) => return (a, p)
  | (.error refusal, _) => Traced.fault (.heightRefused height refusal)

namespace Tower

/-- A detached tower whose links live in array `a`. -/
def ofArray (height : Nat) (a : Array Links) : Tower :=
  ⟨Array.replicate height .detached, a.extract height a.size⟩

/-- All items of the array of a tower. -/
def toArray (t : Tower) : Array Links := t.levels ++ t.slack

/-- A detached tower of a height. -/
def raise (links : Pool Links) (height : Nat) : Traced (Tower × Pool Links) := do
  let (a, links) ← links.arrayFor .blank height
  return (ofArray height a, links)

end Tower

namespace SkipList

/-- Adds detached elements of the given heights. -/
def grow (s : SkipList) (links : Pool Links) : List Nat → Traced (SkipList × Pool Links)
  | [] => return (s, links)
  | height :: rest => do
    let (t, links) ← Tower.raise links height
    grow ⟨s.towers.push t⟩ links rest

/-- The bytes of an element, besides what it carries: its height, and where its links are. -/
def elementBytes : Nat := 24

/-- A list of `len` detached elements that carry `load` bytes each. -/
def build (links : Pool Links) (r : Random) (len load : Nat) :
    Traced (SkipList × Pool Links) := do
  reserve len (elementBytes + load)
  grow ⟨#[]⟩ links (drawnHeights r len)

/-- Hands the arrays of all elements back. -/
def release (s : SkipList) (links : Pool Links) : Except Fault (Pool Links) :=
  s.towers.toList.foldlM (fun links t => links.free t.toArray) links

end SkipList

end TourForest
