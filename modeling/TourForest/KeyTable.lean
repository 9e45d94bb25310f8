import TourForest.Text
import TourForest.WordTable

/-!
# Tables of typed keys

A key that packs into a word without loss is looked up by that word. Packing may fault: pairs of
32-bit numbers leave out the largest number in both halves.
-/

namespace TourForest

/-- Keys that fit into a word. -/
class WordKey (K : Type) where
  /-- The word of a key. -/
  toWord : K → Except Fault UInt64
  /-- The key of a word. -/
  ofWord : UInt64 → K
  /-- A key, written out. -/
  text : K → String

namespace WordKey

/-- Numbers of 32 bits are their own words. -/
instance : WordKey UInt32 where
  toWord k := .ok k.toUInt64
  ofWord w := w.toUInt32
  text k := toString k.toNat

/-- The largest 32-bit number. -/
def maxHalf : UInt32 := 0xFFFFFFFF

/-- A pair has its first number in the upper half of the word. -/
instance : WordKey (UInt32 × UInt32) where
  toWord k :=
    if k.1 = maxHalf ∨ k.2 = maxHalf then .error .halfTooLarge
    else .ok (k.1.toUInt64 <<< 32 ||| k.2.toUInt64)
  ofWord w := ((w >>> 32).toUInt32, w.toUInt32)
  text k := Text.pair (toString k.1.toNat) (toString k.2.toNat)

end WordKey

/-- A table of values by key. -/
structure KeyTable (K : Type) where
  words : WordTable

namespace KeyTable

variable {K : Type}

/-- An empty table for `maxKeys` keys. -/
def withRoom (K : Type) (maxKeys : Nat) : Except Fault (KeyTable K) := do
  return ⟨← WordTable.withRoom maxKeys⟩

/-- The number of slots. -/
def capacity (t : KeyTable K) : Nat := t.words.capacity

/-- The number of keys. -/
def size (t : KeyTable K) : Nat := t.words.size

variable [WordKey K]

/-- Puts a key in. A key that is there keeps its value. The answer says whether the key is new. -/
def insert (t : KeyTable K) (key : K) (value : Nat) :
    Except Fault (Except Refusal Bool × KeyTable K) := do
  let (reply, words) := t.words.insert (← WordKey.toWord key) value
  return (reply, ⟨words⟩)

/-- The value of a key. -/
def find? (t : KeyTable K) (key : K) : Except Fault (Option Nat) := do
  return t.words.find? (← WordKey.toWord key)

/-- Is a key there? -/
def contains (t : KeyTable K) (key : K) : Except Fault Bool := do
  return t.words.contains (← WordKey.toWord key)

/-- Takes a key out. The answer says whether it was there. -/
def erase (t : KeyTable K) (key : K) : Except Fault (Bool × KeyTable K) := do
  let (found, words) := t.words.erase (← WordKey.toWord key)
  return (found, ⟨words⟩)

/-- The keys and their values in the order of the slots. -/
def entries (t : KeyTable K) : List (K × Nat) :=
  t.words.entries.map fun (word, value) => (WordKey.ofWord word, value)

/-- A table, written out in the order of the slots. -/
def text (t : KeyTable K) : String :=
  Text.table (t.entries.map fun (key, value) => (WordKey.text key, toString value))

end KeyTable

end TourForest
