import TourForest.Fault
import TourForest.Hash
import TourForest.PowerOfTwo

/-!
# Tables of words by open addressing

A `WordTable` maps 64-bit words to values. A word is looked for from its home slot on, slot by slot
around the table, until it is met or an empty slot shows that it is not there. Taking a word out
leaves a tombstone, over which later searches pass, unless the slot after it is empty: then no
search has to pass, and the slot and all tombstones right before it become empty. A new word takes
the first slot on its way that is not live.

The number of slots is fixed when the table is made, and is a power of two.
-/

namespace TourForest

/-- One place of a table. -/
inductive Slot where
  /-- Nothing was here since the last sweep. A search stops. -/
  | empty
  /-- A word was taken out here. A search goes on. -/
  | tombstone
  /-- A word with its value. -/
  | live (word : UInt64) (value : Nat)
deriving DecidableEq

/-- A table of words with `size` live slots. -/
structure WordTable where
  slots : Array Slot
  size : Nat

namespace WordTable

/-- The number of slots for `maxKeys` words: a power of two, with a hundred slots and a tenth of
`maxKeys` to spare. -/
def capacityFor (maxKeys : Nat) : Except Fault Nat := do
  nextPowerOfTwo (← addWords (← addWords 100 maxKeys) (maxKeys / 10))

/-- The bytes of a slot: a word and a value. -/
def slotBytes : Nat := 16

/-- An empty table for `maxKeys` words. -/
def withRoom (maxKeys : Nat) : Except Fault WordTable := do
  let capacity ← capacityFor maxKeys
  reserve capacity slotBytes
  return ⟨Array.replicate capacity .empty, 0⟩

/-- The number of slots. -/
def capacity (t : WordTable) : Nat := t.slots.size

/-- The contents of slot `i`. -/
def slot (t : WordTable) (i : Nat) : Slot := t.slots.getD i .empty

/-- The slot where the search for a word begins. -/
def home (t : WordTable) (word : UInt64) : Nat := (hashWord word).toNat % t.capacity

/-- The slot after slot `i`, around the end. -/
def after (t : WordTable) (i : Nat) : Nat := (i + 1) % t.capacity

/-! ## Searching -/

/-- What a search for a word comes to. -/
inductive Search where
  /-- The word is in slot `i`. -/
  | found (i : Nat)
  /-- The word is nowhere, and slot `i` is the first on its way that can take it. -/
  | vacant (i : Nat)
  /-- The word is nowhere, and all slots are live. -/
  | full
deriving DecidableEq

/-- Searches `steps` more slots from slot `i` on, where `spare` is the first tombstone passed so
far. -/
def searchFrom (t : WordTable) (word : UInt64) : (steps i : Nat) → (spare : Option Nat) → Search
  | 0, _, spare => spare.elim .full .vacant
  | steps + 1, i, spare =>
    match t.slot i with
    | .empty => .vacant (spare.getD i)
    | .tombstone => t.searchFrom word steps (t.after i) (some (spare.getD i))
    | .live w _ => if w = word then .found i else t.searchFrom word steps (t.after i) spare

/-- Searches for a word once around the table. -/
def search (t : WordTable) (word : UInt64) : Search :=
  t.searchFrom word t.capacity (t.home word) none

/-- The value of a word. -/
def find? (t : WordTable) (word : UInt64) : Option Nat :=
  match t.search word with
  | .found i =>
    match t.slot i with
    | .live _ value => some value
    | _ => none
  | _ => none

/-- Is a word there? -/
def contains (t : WordTable) (word : UInt64) : Bool := (t.find? word).isSome

/-! ## Changing -/

/-- Puts a word in. A word that is there keeps its value. The answer says whether the word is new. -/
def insert (t : WordTable) (word : UInt64) (value : Nat) : Except Refusal Bool × WordTable :=
  match t.search word with
  | .found _ => (.ok false, t)
  | .vacant i => (.ok true, ⟨t.slots.setIfInBounds i (.live word value), t.size + 1⟩)
  | .full => (.error (.tableFull t.capacity), t)

/-- Empties slot `j` and then the tombstones right before it, at most `steps` slots in all and not
around the table to slot `stop` again. -/
def sweep (slots : Array Slot) (stop : Nat) : (steps j : Nat) → Array Slot
  | 0, _ => slots
  | steps + 1, j =>
    let slots := slots.setIfInBounds j .empty
    let before := (j + slots.size - 1) % slots.size
    if before = stop ∨ slots.getD before .empty ≠ .tombstone then slots
    else sweep slots stop steps before

/-- Takes the word in slot `i` out. -/
def vacate (t : WordTable) (i : Nat) : WordTable :=
  if t.slot (t.after i) = .empty then ⟨sweep t.slots i t.capacity i, t.size - 1⟩
  else ⟨t.slots.setIfInBounds i .tombstone, t.size - 1⟩

/-- Takes a word out. The answer says whether it was there. -/
def erase (t : WordTable) (word : UInt64) : Bool × WordTable :=
  match t.search word with
  | .found i => (true, t.vacate i)
  | _ => (false, t)

/-- The words and their values in the order of the slots. -/
def entries (t : WordTable) : List (UInt64 × Nat) :=
  t.slots.toList.filterMap fun
    | .live word value => some (word, value)
    | _ => none

end WordTable

end TourForest
