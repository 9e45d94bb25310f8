import Mathlib.Data.FinEnum
import Mathlib.Data.Nat.Prime.Basic
import TourForest.Random

/-!
# The hash is a permutation

Each step of the hash can be undone: a factor is odd and so has an inverse, and a word can be told from its
mixture with itself shifted. So distinct words have distinct hashes, and since there are finitely many words,
each of them is the hash of one.

* `xorRight_injective`, `xorLeft_injective`: a word mixed with itself shifted;
* `hashWord_bijective`: all steps together;
* `Random.draws_each_once`: no generator draws a number twice, and no two generators draw the same number in
  the same place.
-/

namespace TourForest

variable {s v w m d : UInt64}

/-! ## Mixing a word with itself shifted -/

/-- A word can be told from its mixture with an image under a map that goes along with mixing, where no word but 0
is its own image. -/
theorem eq_of_mixed {f : UInt64 → UInt64} (hf : ∀ v w, f (v ^^^ w) = f v ^^^ f w) (hzero : ∀ d, f d = d → d = 0)
    (h : v ^^^ f v = w ^^^ f w) : v = w := by
  -- Both sides together: the difference of the words is its own image.
  have hd : (v ^^^ f v) ^^^ (w ^^^ f w) = 0 := UInt64.xor_eq_zero_iff.mpr h
  have hswap : (v ^^^ f v) ^^^ (w ^^^ f w) = f (v ^^^ w) ^^^ (v ^^^ w) := by
    rw [hf]
    ac_rfl
  rw [hswap, UInt64.xor_eq_zero_iff] at hd
  exact UInt64.xor_eq_zero_iff.mp (hzero _ hd)

/-- A number that stays the same when it is shifted right is 0. -/
theorem eq_zero_of_shiftRight {d : UInt64} (hs : 0 < s.toNat % 64) (h : d >>> s = d) : d = 0 := by
  have hd := congrArg UInt64.toNat h
  rw [UInt64.toNat_shiftRight, Nat.shiftRight_eq_div_pow] at hd
  refine UInt64.toNat_inj.mp (Nat.eq_zero_of_not_pos fun hpos => ?_)
  have := Nat.div_lt_self hpos (Nat.one_lt_two_pow hs.ne')
  omega

/-- A number that stays the same when it is shifted left is 0, since one less than a power of two is odd. -/
theorem eq_zero_of_shiftLeft {d : UInt64} (hs : 0 < s.toNat % 64) (h : d <<< s = d) : d = 0 := by
  have hd := congrArg UInt64.toNat h
  rw [UInt64.toNat_shiftLeft, Nat.shiftLeft_eq] at hd
  have hdvd : 2 ^ 64 ∣ d.toNat * (2 ^ (s.toNat % 64) - 1) := by
    have hmod := Nat.dvd_sub_mod (n := 2 ^ 64) (d.toNat * 2 ^ (s.toNat % 64))
    rwa [hd, ← Nat.mul_sub_one] at hmod
  have hodd : Nat.Coprime (2 ^ 64) (2 ^ (s.toNat % 64) - 1) := by
    refine Nat.Coprime.pow_left 64 (Nat.coprime_two_left.mpr ?_)
    exact Nat.Even.sub_odd Nat.one_le_two_pow (Nat.even_pow.mpr ⟨even_two, hs.ne'⟩) odd_one
  have hzero := Nat.eq_zero_of_dvd_of_lt (hodd.dvd_of_dvd_mul_right hdvd) (UInt64.toNat_lt d)
  exact UInt64.toNat_inj.mp hzero

theorem xorRight_injective (hs : 0 < s.toNat % 64) : Function.Injective (xorRight · s) := fun _ _ =>
  eq_of_mixed (f := (· >>> s)) (fun _ _ => UInt64.shiftRight_xor) fun _ => eq_zero_of_shiftRight hs

theorem xorLeft_injective (hs : 0 < s.toNat % 64) : Function.Injective (xorLeft · s) := fun _ _ =>
  eq_of_mixed (f := (· <<< s)) (fun _ _ => UInt64.shiftLeft_xor) fun _ => eq_zero_of_shiftLeft hs

/-! ## The hash -/

/-- A factor with an inverse can be taken back. -/
theorem mul_injective_of_inverse (h : m * d = 1) : Function.Injective (· * m) := fun v w heq => by
  have := congrArg (· * d) heq
  simpa only [UInt64.mul_assoc, h, UInt64.mul_one] using this

/-- The steps of the hash, the first one last. -/
theorem hashWord_eq_comp : hashWord =
    (xorLeft · 5) ∘ (xorRight · 41) ∘ (xorLeft · 20) ∘ (· * 4768777513237032717) ∘ (xorRight · 4) ∘ (xorLeft · 37) ∘
      (xorRight · 21) ∘ (· + 2691343689449507681) ∘ (· * 3935559000370003845) := rfl

theorem hashWord_injective : Function.Injective hashWord := by
  rw [hashWord_eq_comp]
  refine (xorLeft_injective (by decide)).comp <| (xorRight_injective (by decide)).comp <|
    (xorLeft_injective (by decide)).comp <| Function.Injective.comp ?_ <| (xorRight_injective (by decide)).comp <|
    (xorLeft_injective (by decide)).comp <| (xorRight_injective (by decide)).comp <| Function.Injective.comp ?_ ?_
  · exact mul_injective_of_inverse (d := 1615231051170002885) (by decide)
  · exact fun v w => (UInt64.add_left_inj _).mp
  · exact mul_injective_of_inverse (d := 13700500150304694605) (by decide)

/-- Each word is the hash of one word. -/
theorem hashWord_bijective : Function.Bijective hashWord := Finite.injective_iff_bijective.mp hashWord_injective

/-! ## Generators -/

namespace Random

variable {r t : Random} {i j : UInt64}

theorem draw_eq_iff : r.draw i = t.draw j ↔ i + r.state = j + t.state := hashWord_injective.eq_iff

theorem fork_eq_iff : r.fork i = t.fork j ↔ i + r.state = j + t.state := by
  rw [fork, fork, Random.mk.injEq, hashWord_injective.eq_iff, hashWord_injective.eq_iff]

theorem state_eq_iff : r.state = t.state ↔ r = t := ⟨congrArg Random.mk, congrArg Random.state⟩

/-- As `i` goes through all words, so does the `i`-th number of a generator. -/
theorem existsUnique_draw (r : Random) (w : UInt64) : ∃! i, r.draw i = w := by
  obtain ⟨v, hv, hunique⟩ := hashWord_bijective.existsUnique w
  refine ⟨v - r.state, ?_, fun i hi => ?_⟩
  · show hashWord (v - r.state + r.state) = w
    rw [UInt64.sub_add_cancel, hv]
  · rw [← hunique (i + r.state) hi, UInt64.add_sub_cancel]

/-- The hash is a permutation. So each generator draws each number once, its forks are all different, and two
generators differ in each number that they draw, in each fork and in the generator after them. -/
theorem draws_each_once :
    Function.Bijective hashWord ∧
    ∀ r : Random,
      (∀ w, ∃! i, r.draw i = w) ∧
      (∀ i j, r.fork i = r.fork j ↔ i = j) ∧
      (∀ t i, r.draw i = t.draw i ↔ r = t) ∧
      (∀ t i, r.fork i = t.fork i ↔ r = t) ∧
      ∀ t, r.next = t.next ↔ r = t := by
  have hforks (r t : Random) (i : UInt64) : r.fork i = t.fork i ↔ r = t := by
    rw [fork_eq_iff, UInt64.add_right_inj, state_eq_iff]
  refine ⟨hashWord_bijective, fun r => ⟨r.existsUnique_draw, fun i j => ?_, fun t i => ?_, hforks r, fun t => ?_⟩⟩
  · rw [fork_eq_iff, UInt64.add_left_inj]
  · rw [draw_eq_iff, UInt64.add_right_inj, state_eq_iff]
  · exact hforks r t 0

end Random

end TourForest
