import TourForest.PowerOfTwo
import TourForest.Shelf
import TourForest.Text
import TourForest.Trace

/-!
# Pools of small arrays

Arrays have sizes that are powers of two, one shelf per size. A request is served from the shelf of
the least size that is large enough, first in first out, and with a new array when the shelf is
empty. An array handed back keeps its contents until its next owner overwrites them.
-/

namespace TourForest

/-- The longest array a pool serves. -/
def longestArray : Nat := 32

/-- The number of shelves of a pool. -/
def shelfCount : Nat := 6

/-- The shelf that serves arrays of `len` items: its arrays have the least power of two of items
that is at least `len`. -/
def sizeClass (len : Nat) : Nat := ceilLog2 len

/-- Arrays waiting to be used again, by size class. -/
structure Pool (α : Type) where
  shelves : Vector (Shelf α) shelfCount

namespace Pool

variable {α : Type}

/-- A pool with nothing on its shelves. -/
def empty : Pool α := ⟨Vector.replicate shelfCount .empty⟩

/-- The arrays of one size class. There is nothing beyond the last class. -/
def shelf (p : Pool α) (c : Nat) : Shelf α := (p.shelves[c]?).getD .empty

/-- Replaces the arrays of one size class. -/
def setShelf (p : Pool α) (c : Nat) (s : Shelf α) : Pool α := ⟨p.shelves.setIfInBounds c s⟩

/-- Takes the longest waiting array of a size class, or makes one of `blank` items. -/
def take (p : Pool α) (blank : α) (c : Nat) : Traced (Array α × Pool α) :=
  match (p.shelf c).take? with
  | some (a, rest) => pure (a, p.setShelf c rest)
  | none => do
    Traced.report (.freshArray c)
    return (Array.replicate (1 <<< c) blank, p)

/-- An array of at least `len` items, with whatever its last owner left in it. -/
def allocate (p : Pool α) (blank : α) (len : Nat) : Traced (Except Refusal (Array α) × Pool α) :=
  if longestArray < len then
    return (.error (.tooLong len longestArray), p)
  else do
    let (a, p) ← p.take blank (sizeClass len)
    return (.ok a, p)

/-- Hands an array back to its shelf. Its length has to be that of a size class; one too long for
any shelf is let go. -/
def free (p : Pool α) (a : Array α) : Except Fault (Pool α) :=
  let c := sizeClass a.size
  if a.size = 1 <<< c then .ok (p.setShelf c ((p.shelf c).put a))
  else .error (.foreignArray a.size (1 <<< c))

/-- The number of arrays waiting in the size class of `len`, whose size has to fit into a word. -/
def waiting (p : Pool α) (len : Nat) : Except Fault Nat := do
  let _ ← nextPowerOfTwo len
  return (p.shelf (sizeClass len)).size

/-- The number of arrays on each shelf, written out. -/
def text (p : Pool α) : String :=
  Text.record "ArrayAllocator"
    [("free", Text.list (p.shelves.toList.map fun s => toString s.size))]

/-! ## Shelves after a change -/

theorem shelf_setShelf (p : Pool α) (c d : Nat) (s : Shelf α) :
    (p.setShelf c s).shelf d = if d = c ∧ c < shelfCount then s else p.shelf d := by
  unfold setShelf shelf
  dsimp only
  rw [Vector.getElem?_setIfInBounds]
  by_cases h : c = d
  · subst h
    by_cases hc : c < shelfCount <;> simp [hc]
  · simp [h, Ne.symm h]

@[simp] theorem shelf_empty (c : Nat) : (empty : Pool α).shelf c = .empty := by
  unfold empty shelf
  rw [Vector.getElem?_replicate]
  split <;> rfl

end Pool

end TourForest
