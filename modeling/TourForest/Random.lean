import TourForest.Fault
import TourForest.Hash
import TourForest.Text

/-!
# Forkable randomness

A generator is one word of state. `Random.draw` draws the `i`-th number of a state without
changing it, so many draws can be made from one state in any order; `Random.next` moves on to the
next state. On top of that a generator can be read as a stream: `nextWord` draws and moves on,
`takeBytes` cuts the drawn words into bytes, least significant byte first, and `fill` does so for a
block of memory, as does `tryFill`, which could refuse and never does.
-/

namespace TourForest

/-- A generator of random words. -/
structure Random where
  state : UInt64 := 0
deriving DecidableEq

namespace Random

/-- The `i`-th generator derived from this one. -/
def fork (r : Random) (i : UInt64) : Random := ⟨hashWord (hashWord (i + r.state))⟩

/-- The generator after this one. -/
def next (r : Random) : Random := r.fork 0

/-- The `i`-th number of a generator. -/
def draw (r : Random) (i : UInt64) : UInt64 := hashWord (i + r.state)

/-! ## Reading a stream -/

/-- Draws a word and moves on. -/
def nextWord (r : Random) : UInt64 × Random := (r.draw 0, r.next)

/-- Draws the upper half of a word and moves on. -/
def nextHalf (r : Random) : UInt32 × Random := ((r.draw 0 >>> 32).toUInt32, r.next)

/-- The eight bytes of a word, least significant first. -/
def bytesOf (w : UInt64) : List UInt8 :=
  (List.range 8).map fun i => (w >>> (8 * i.toUInt64)).toUInt8

/-- The word with these bytes, least significant first. -/
def wordOf (bytes : List UInt8) : UInt64 :=
  bytes.foldr (fun b w => w <<< 8 ||| b.toUInt64) 0

/-- Draws `n` bytes. The last word drawn is cut short where `n` is no multiple of eight. -/
def takeBytes (r : Random) (n : Nat) : List UInt8 × Random :=
  if n = 0 then ([], r)
  else
    let (w, r) := r.nextWord
    let (rest, r) := r.takeBytes (n - 8)
    ((bytesOf w).take n ++ rest, r)
termination_by n

/-- Fills a block of `n` bytes. -/
def fill (r : Random) (n : Nat) : Except Fault (List UInt8 × Random) := do
  reserve n 1
  return r.takeBytes n

/-- Fills a block of `n` bytes if it can. A generator never runs out of words, so no block is refused. -/
def tryFill (r : Random) (n : Nat) : Except Fault (Except Refusal (List UInt8) × Random) := do
  let (bytes, r) ← r.fill n
  return (.ok bytes, r)

/-- The generator whose state has these bytes, least significant first. -/
def ofBytes (bytes : List UInt8) : Random := ⟨wordOf bytes⟩

/-- A generator, written out. -/
def text (r : Random) : String := Text.record "Random" [("state", toString r.state.toNat)]

end Random

end TourForest
