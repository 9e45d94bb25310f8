import Mathlib.Data.Nat.Digits.Defs
import TourForest.Proofs.Outcome
import TourForest.Random

/-!
# Generators as streams of bytes

A generator that is read byte by byte gives the bytes of the words that it draws one after the other, each word with
its least significant byte first. What is not needed of the last word is lost: the generator moves on by whole words.

* `Random.ofDigits_bytesOf`: the bytes of a word are its digits to the base 256, the lowest first;
* `Random.takeBytes_eq`: the bytes that are taken, and the generator afterwards, from the words;
* `Random.takeBytes_add`: a number of whole words and then some more bytes, against all of them at once.
-/

namespace TourForest.Random

variable {a b n : Nat}

/-! ## Words one after the other -/

/-- The next `m` words, and the generator after them. -/
def nextWords (r : Random) : Nat → List UInt64 × Random
  | 0 => ([], r)
  | m + 1 =>
    let (w, r) := r.nextWord
    let (ws, r) := r.nextWords m
    (w :: ws, r)

theorem nextWords_succ (r : Random) (m : Nat) :
    r.nextWords (m + 1) = (r.nextWord.1 :: (r.nextWord.2.nextWords m).1, (r.nextWord.2.nextWords m).2) := rfl

theorem length_nextWords (r : Random) (m : Nat) : (r.nextWords m).1.length = m := by
  induction m generalizing r with
  | zero => rfl
  | succ m ih => rw [nextWords_succ, List.length_cons, ih]

theorem nextWords_add (r : Random) (a b : Nat) :
    r.nextWords (a + b) =
      ((r.nextWords a).1 ++ ((r.nextWords a).2.nextWords b).1, ((r.nextWords a).2.nextWords b).2) := by
  induction a generalizing r with
  | zero => rw [Nat.zero_add, nextWords, List.nil_append]
  | succ a ih => rw [Nat.succ_add, nextWords_succ, nextWords_succ, ih, List.cons_append]

/-! ## Bytes of words -/

theorem length_bytesOf (w : UInt64) : (bytesOf w).length = 8 := rfl

/-- The lowest `k` digits of a number, the lowest first. -/
theorem ofDigits_map_range (b n k : Nat) : Nat.ofDigits b ((List.range k).map fun i => n / b ^ i % b) = n % b ^ k := by
  induction k with
  | zero => exact (Nat.mod_one n).symm
  | succ k ih =>
    rw [List.range_succ, List.map_append, Nat.ofDigits_append, ih, List.length_map, List.length_range,
      List.map_singleton, Nat.ofDigits_singleton, Nat.mod_pow_succ]

theorem toNat_shiftRight_byte (w : UInt64) {i : Nat} (hi : i < 8) :
    (w >>> (8 * i.toUInt64)).toUInt8.toNat = w.toNat / 256 ^ i % 256 := by
  have hshift : (8 * i.toUInt64).toNat % 64 = 8 * i := by
    rw [UInt64.toNat_mul, show (8 : UInt64).toNat = 8 from rfl, UInt64.toNat_ofNat',
      Nat.mod_eq_of_lt (show i < 2 ^ 64 by omega)]
    omega
  rw [UInt64.toNat_toUInt8, UInt64.toNat_shiftRight, hshift, Nat.shiftRight_eq_div_pow, pow_mul,
    show 2 ^ 8 = 256 from rfl]

/-- The bytes of a word are its digits to the base 256, the lowest first. -/
theorem ofDigits_bytesOf (w : UInt64) : Nat.ofDigits 256 ((bytesOf w).map UInt8.toNat) = w.toNat := by
  have hdigits : (bytesOf w).map UInt8.toNat = (List.range 8).map fun i => w.toNat / 256 ^ i % 256 := by
    rw [bytesOf, List.map_map]
    exact List.map_congr_left fun i hi => toNat_shiftRight_byte w (List.mem_range.mp hi)
  rw [hdigits, ofDigits_map_range]
  exact Nat.mod_eq_of_lt w.toNat_lt

theorem length_flatMap_bytesOf (ws : List UInt64) : (ws.flatMap bytesOf).length = 8 * ws.length := by
  induction ws with
  | nil => rfl
  | cons w ws ih =>
    rw [List.flatMap_cons, List.length_append, length_bytesOf, ih, List.length_cons]
    omega

/-! ## Taking bytes -/

/-- The first `n` bytes of as many words as they need, and the generator after those words. -/
def wordBytes (r : Random) (n : Nat) : List UInt8 × Random :=
  (((r.nextWords ((n + 7) / 8)).1.flatMap bytesOf).take n, (r.nextWords ((n + 7) / 8)).2)

theorem length_wordBytes (r : Random) (n : Nat) : (r.wordBytes n).1.length = n := by
  rw [wordBytes, List.length_take, length_flatMap_bytesOf, length_nextWords]
  omega

/-- The first word of a block that is not empty, and the rest of the block. -/
theorem wordBytes_of_pos (r : Random) (hn : 0 < n) :
    r.wordBytes n = ((bytesOf r.nextWord.1).take n ++ (r.nextWord.2.wordBytes (n - 8)).1,
      (r.nextWord.2.wordBytes (n - 8)).2) := by
  have hwords : (n + 7) / 8 = (n - 8 + 7) / 8 + 1 := by omega
  rw [wordBytes, wordBytes, hwords, nextWords_succ, List.flatMap_cons, List.take_append, length_bytesOf]

/-- Bytes are taken from the words of the generator, which moves on by whole words. -/
theorem takeBytes_eq (r : Random) (n : Nat) : r.takeBytes n = r.wordBytes n := by
  -- Each word shortens the block by eight bytes, the last one by what is left.
  induction n using Nat.strong_induction_on generalizing r with
  | _ n ih =>
    rw [takeBytes]
    split
    · next h0 =>
      subst h0
      rfl
    · next h0 =>
      have hpos := Nat.pos_of_ne_zero h0
      rw [wordBytes_of_pos r hpos, ← ih (n - 8) (by omega)]

/-- A number of whole words and then some more bytes are as many bytes at once. -/
theorem takeBytes_add (r : Random) (h : 8 ∣ a) :
    r.takeBytes (a + b) =
      ((r.takeBytes a).1 ++ ((r.takeBytes a).2.takeBytes b).1, ((r.takeBytes a).2.takeBytes b).2) := by
  obtain ⟨k, rfl⟩ := h
  have hwords : (8 * k + b + 7) / 8 = k + (b + 7) / 8 := by omega
  have hwords' : (8 * k + 7) / 8 = k := by omega
  have hlen : ((r.nextWords k).1.flatMap bytesOf).length = 8 * k := by
    rw [length_flatMap_bytesOf, length_nextWords]
  simp only [takeBytes_eq, wordBytes, hwords, hwords', nextWords_add, List.flatMap_append]
  rw [← hlen, List.take_length_add_append, List.take_length]

theorem fill_of_le (r : Random) (hn : n ≤ largestBlock) : r.fill n = .ok (r.takeBytes n) := by
  have hfits : reserve n 1 = .ok () := if_pos (by rwa [Nat.mul_one])
  rw [fill, hfits]
  rfl

/-- A block that fits into memory is filled with the first bytes of the words that the generator draws one after the
other, the least significant byte of each word first, and the generator moves on by those words. So to fill a block of
whole words and then another one is to fill both at once. -/
theorem fill_of_words :
    (∀ w, (bytesOf w).length = 8 ∧ Nat.ofDigits 256 ((bytesOf w).map UInt8.toNat) = w.toNat) ∧
    ∀ r : Random,
      (∀ n ≤ largestBlock, r.fill n = .ok (r.takeBytes n) ∧
        r.tryFill n = .ok (.ok (r.takeBytes n).1, (r.takeBytes n).2)) ∧
      (∀ n, r.takeBytes n = r.wordBytes n ∧ (r.wordBytes n).1.length = n) ∧
      ∀ a b, 8 ∣ a → r.takeBytes (a + b) =
        ((r.takeBytes a).1 ++ ((r.takeBytes a).2.takeBytes b).1, ((r.takeBytes a).2.takeBytes b).2) := by
  refine ⟨fun w => ⟨length_bytesOf w, ofDigits_bytesOf w⟩, fun r => ⟨fun n hn => ⟨fill_of_le r hn, ?_⟩,
    fun n => ⟨takeBytes_eq r n, length_wordBytes r n⟩, fun a b h => takeBytes_add r h⟩⟩
  rw [tryFill, fill_of_le r hn]
  rfl

/-- Thirteen bytes, at once and in two blocks. -/
theorem fill_of_words_in_two_blocks :
    13 ≤ largestBlock ∧ 8 ∣ 8 ∧
    (Random.mk 5).fill 13 =
      .ok ([68, 5, 43, 217, 16, 139, 240, 226, 189, 179, 218, 191, 138], ⟨4647345724716217409⟩) ∧
    (Random.mk 5).takeBytes 8 = ([68, 5, 43, 217, 16, 139, 240, 226], (Random.mk 5).next) ∧
    (Random.mk 5).next.takeBytes 5 = ([189, 179, 218, 191, 138], ⟨4647345724716217409⟩) := by
  have hfits : 13 ≤ largestBlock := by decide
  obtain ⟨-, hlaw⟩ := fill_of_words
  obtain ⟨hfill, hbytes, hadd⟩ := hlaw ⟨5⟩
  obtain ⟨-, hbytes', -⟩ := hlaw (Random.mk 5).next
  have hfirst : (Random.mk 5).takeBytes 8 = ([68, 5, 43, 217, 16, 139, 240, 226], (Random.mk 5).next) := by
    rw [(hbytes 8).1]
    decide +kernel
  have hrest : (Random.mk 5).next.takeBytes 5 = ([189, 179, 218, 191, 138], ⟨4647345724716217409⟩) := by
    rw [(hbytes' 5).1]
    decide +kernel
  refine ⟨hfits, by decide, ?_, hfirst, hrest⟩
  rw [(hfill 13 hfits).1, hadd 8 5 (by decide), hfirst, hrest]
  rfl

end TourForest.Random
