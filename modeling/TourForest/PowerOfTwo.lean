import TourForest.Fault

/-!
# Rounding up to a power of two

`ceilLog2` is the exponent and `nextPowerOfTwo` the power, which has to fit into a word.
-/

namespace TourForest

/-- The least exponent whose power of two is at least `n`. -/
def ceilLog2 (n : Nat) : Nat := if n ≤ 1 then 0 else (n - 1).log2 + 1

/-- The least power of two that is at least `n`. -/
def nextPowerOfTwo (n : Nat) : Except Fault Nat :=
  let power := 1 <<< ceilLog2 n
  if power ≤ maxWord then .ok power else .error .addOverflow

theorem le_shiftLeft_ceilLog2 (n : Nat) : n ≤ 1 <<< ceilLog2 n := by
  unfold ceilLog2
  split
  · assumption
  · have := Nat.lt_log2_self (n := n - 1)
    rw [Nat.one_shiftLeft]
    omega

/-- No smaller power of two is at least `n`. -/
theorem shiftLeft_lt_of_lt_ceilLog2 {n c : Nat} (h : c < ceilLog2 n) : 1 <<< c < n := by
  unfold ceilLog2 at h
  split at h
  · omega
  · have hle := Nat.log2_self_le (n := n - 1) (by omega)
    have hmono := Nat.pow_le_pow_right (n := 2) (by decide) (Nat.le_of_lt_succ h)
    rw [Nat.one_shiftLeft]
    omega

end TourForest
