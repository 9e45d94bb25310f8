import TourForest.Random

/-!
# Heights of elements

The height of an element is drawn from a random word: one level, and one more for each one bit at
the low end of the word, so that each further level is half as likely.
-/

namespace TourForest

/-- The largest height of an element. -/
def maxHeight : Nat := 32

/-- The number of one bits at the low end of a word. -/
def trailingOnes (w : UInt64) : Nat := ((List.range 64).takeWhile w.toNat.testBit).length

/-- The height drawn from a word. -/
def heightOfWord (w : UInt64) : Nat := min (trailingOnes w + 1) maxHeight

/-- The heights of `len` elements: element `i` draws the `i`-th number of the generator. -/
def drawnHeights (r : Random) (len : Nat) : List Nat :=
  (List.range len).map fun i => heightOfWord (r.draw i.toUInt64)

end TourForest
