/-!
# A hash of 64-bit words

`hashWord` mixes a word by two multiplications with odd constants and six shifts. Each step can be
undone, so distinct words have distinct hashes. All arithmetic wraps.
-/

namespace TourForest

/-- Mixes a word with itself shifted right. -/
def xorRight (v : UInt64) (s : UInt64) : UInt64 := v ^^^ (v >>> s)

/-- Mixes a word with itself shifted left. -/
def xorLeft (v : UInt64) (s : UInt64) : UInt64 := v ^^^ (v <<< s)

/-- A hash of words in which every bit of the input has a say in every bit of the result. -/
def hashWord (u : UInt64) : UInt64 :=
  let v := u * 3935559000370003845 + 2691343689449507681
  let v := xorRight v 21
  let v := xorLeft v 37
  let v := xorRight v 4
  let v := v * 4768777513237032717
  let v := xorLeft v 20
  let v := xorRight v 41
  xorLeft v 5

end TourForest
