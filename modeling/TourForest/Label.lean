import TourForest.SkipList.Text

/-!
# Labels of elements

What the elements of a list carry for their owner, beside links and sums. A label depends on the
element alone and never changes.
-/

namespace TourForest

/-- What each element of a list carries. -/
inductive Label where
  /-- Nothing. -/
  | nothing
  /-- The index and the height of the element. -/
  | place
  /-- Whether the index of the element is even. -/
  | parity
deriving DecidableEq

namespace Label

/-- The bytes of a label, in whole words. -/
def bytes : Label → Nat
  | nothing => 0
  | place => 16
  | parity => 8

/-- The label of element `u` with the given height, written out. -/
def text (label : Label) (u height : Nat) : String :=
  match label with
  | nothing => "()"
  | place => Text.pair (toString u) (toString height)
  | parity => toString (u % 2 == 0)

/-- The label of an element of a list. -/
def of (label : Label) (s : SkipList) (u : Nat) : Except Fault String := do
  return label.text u (← s.heightOf u)

end Label

/-- A list whose elements carry labels, written out. -/
def SkipList.labelledText (s : SkipList) (label : Label) : Except Fault String :=
  s.text fun u => label.text u (s.height u)

end TourForest
