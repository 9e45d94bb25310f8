import TourForest.SumList.Basic

/-!
# Adding values up along a walk

A walk goes from place to place and adds a value with each stride. The place alone decides about the
stride. `Walk.finish` gives the place where a walk stops, with the sum on arrival.

Sums that leave the range of 32 bits fault, in the order in which they are taken. A walk that has
not stopped after as many strides as there are places goes round and round. If the sum comes back
together with the place, the walk never ends. Otherwise each round changes the sum by the same
amount, so that it leaves its range in the end. One round is enough to tell.
-/

namespace TourForest

/-- What a walk does at a place. -/
inductive Stride (P : Type) where
  /-- It stops there. -/
  | stop
  /-- It adds a value and goes on to another place. -/
  | go (value : Int) (next : P)

/-- A walk, by what it does at each place. -/
structure Walk (P : Type) where
  stride : P → Except Fault (Stride P)

/-- How far a walk has come. -/
structure Progress (P : Type) where
  place : P
  sum : Int
  /-- Whether the walk stops at this place. -/
  stopped : Bool

namespace Walk

variable {P : Type}

/-- Takes `strides` strides, or fewer if the walk stops before that. -/
@[specialize] def advance (w : Walk P) : (strides : Nat) → (place : P) → (sum : Int) →
    Except Fault (Progress P)
  | 0, place, sum => .ok ⟨place, sum, false⟩
  | strides + 1, place, sum => do
    match ← w.stride place with
    | .stop => return ⟨place, sum, true⟩
    | .go value next => w.advance strides next (← addValues sum value)

/-- The walk that also stops at `home`. -/
def haltAt [DecidableEq P] (w : Walk P) (home : P) : Walk P :=
  ⟨fun place => if place = home then .ok .stop else w.stride place⟩

/-- Goes on from `home`, to which a walk through `places` places comes back. -/
def goRound [DecidableEq P] (w : Walk P) (places : Nat) (home : P) (sum : Int) :
    Except Fault (P × Int) := do
  match ← w.stride home with
  | .stop => return (home, sum)
  | .go value next =>
    let again ← (w.haltAt home).advance places next (← addValues sum value)
    if again.sum = sum then .error .endlessWalk else .error .addOverflow

/-- Takes a walk through at most `places` places to its end. -/
@[specialize] def finish [DecidableEq P] (w : Walk P) (places : Nat) (start : P) (sum : Int) :
    Except Fault (P × Int) := do
  let reached ← w.advance places start sum
  if reached.stopped then return (reached.place, reached.sum)
  else w.goRound places reached.place reached.sum

end Walk

end TourForest
