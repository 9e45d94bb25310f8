import Mathlib.Data.Nat.Bitwise
import TourForest.Proofs.Outcome
import TourForest.Twin

/-!
# Mates

The mate of an element of an edge is its twin, and a vertex is its own mate, so that taking mates is an
involution on the arena.
-/

namespace TourForest

variable {n p x y : Nat}

/-- The twin of an element of an edge. A vertex is its own mate. -/
def mate (n x : Nat) : Nat := if x < n then x else n + ((x - n) ^^^ 1)

theorem mate_of_lt (h : x < n) : mate n x = x := if_pos h

theorem xor_one_two_mul (p : Nat) : (2 * p) ^^^ 1 = 2 * p + 1 := Nat.xor_one_of_even (even_two_mul p)

theorem xor_one_two_mul_add_one (p : Nat) : (2 * p + 1) ^^^ 1 = 2 * p :=
  Nat.xor_one_of_odd (odd_two_mul_add_one p)

@[simp] theorem mate_even (n p : Nat) : mate n (n + 2 * p) = n + 2 * p + 1 := by
  rw [mate, if_neg (by omega), Nat.add_sub_cancel_left, xor_one_two_mul, Nat.add_assoc]

@[simp] theorem mate_odd (n p : Nat) : mate n (n + 2 * p + 1) = n + 2 * p := by
  rw [mate, if_neg (by omega), show n + 2 * p + 1 - n = 2 * p + 1 by omega, xor_one_two_mul_add_one]

/-- Elements of edges come in pairs. -/
theorem eq_even_or_odd (h : n ≤ x) : x = n + 2 * ((x - n) / 2) ∨ x = n + 2 * ((x - n) / 2) + 1 := by
  omega

@[simp] theorem mate_mate (n x : Nat) : mate n (mate n x) = x := by
  by_cases h : x < n
  · rw [mate_of_lt h, mate_of_lt h]
  · rcases eq_even_or_odd (not_lt.mp h) with hx | hx <;> rw [hx] <;> simp

theorem mate_injective (n : Nat) : Function.Injective (mate n) :=
  Function.LeftInverse.injective (mate_mate n)

theorem mate_eq_iff : mate n x = y ↔ x = mate n y :=
  ⟨fun h => by rw [← h, mate_mate], fun h => by rw [h, mate_mate]⟩

theorem le_mate (h : n ≤ x) : n ≤ mate n x := by
  rw [mate, if_neg (not_lt.mpr h)]
  exact Nat.le_add_right _ _

theorem mate_ne (h : n ≤ x) : mate n x ≠ x := by
  rcases eq_even_or_odd h with hx | hx <;> rw [hx] <;> simp

/-- A mate belongs to the same pair. -/
theorem pair_mate (h : n ≤ x) : (mate n x - n) / 2 = (x - n) / 2 := by
  rcases eq_even_or_odd h with hx | hx
  · rw [hx, mate_even]
    omega
  · rw [hx, mate_odd]
    omega

/-- An element and its mate are the two elements of a pair. -/
theorem eq_even_or_odd_of_mem (h : n ≤ x) (hy : y ∈ [x, mate n x]) :
    y = n + 2 * ((x - n) / 2) ∨ y = n + 2 * ((x - n) / 2) + 1 := by
  simp only [List.mem_cons, List.not_mem_nil, or_false] at hy
  rcases hy with rfl | rfl
  · exact eq_even_or_odd h
  · rw [← pair_mate h]
    exact eq_even_or_odd (le_mate h)

theorem eq_or_eq_mate (hx : n ≤ x) (hy : n ≤ y) (h : (x - n) / 2 = (y - n) / 2) : y = x ∨ y = mate n x := by
  have hx' := eq_even_or_odd hx
  have hy' := eq_even_or_odd hy
  rw [h] at hx'
  generalize (y - n) / 2 = p at hx' hy'
  rcases hx' with rfl | rfl <;> rcases hy' with rfl | rfl <;> simp

theorem twin_eq (h : n ≤ x) (hw : x < maxWord) : twin n x = .ok (mate n x) := by
  have hle : n + ((x - n) ^^^ 1) ≤ maxWord := by
    have hm : mate n x ≤ x + 1 := by
      rcases eq_even_or_odd h with hx | hx <;> rw [hx] <;> simp
      omega
    rw [mate, if_neg (not_lt.mpr h)] at hm
    omega
  rw [twin, subWords, if_pos h, ok_bind, addWords, if_pos hle, mate, if_neg (not_lt.mpr h)]

theorem pairOf_eq (h : n ≤ x) : pairOf n x = .ok ((x - n) / 2) := by
  rw [pairOf, subWords, if_pos h]
  rfl

end TourForest
