import Mathlib

/-! # Sixty-four bit words carried by natural numbers

Addresses and sizes of the kernel are `u64` values.  They are carried as natural
numbers, and an operation that can leave the word range is written with an
explicit reduction modulo `2 ^ 64`.
-/

namespace Miracle

/-- Reduction of a value to the range of a `u64`. -/
def u64 (n : Nat) : Nat := n % 2 ^ 64

/-- Subtraction of two `u64` values. -/
def u64Sub (a b : Nat) : Nat := (2 ^ 64 + a - b) % 2 ^ 64

theorem u64_of_lt {n : Nat} (h : n < 2 ^ 64) : u64 n = n := Nat.mod_eq_of_lt h

theorem u64_lt (n : Nat) : u64 n < 2 ^ 64 := Nat.mod_lt _ (by decide)

theorem u64Sub_of_le {a b : Nat} (ha : a < 2 ^ 64) (h : b ≤ a) : u64Sub a b = a - b := by
  unfold u64Sub
  omega

/-! ## Rounding with masks

Setting the low `k` bits of a number or clearing them moves it to the end or to the start of its block of length `2 ^ k`.
-/

theorem and_highMask {x k w : Nat} (word : x < 2 ^ w) (le : k ≤ w) : x &&& (2 ^ w - 2 ^ k) = x / 2 ^ k * 2 ^ k := by
  have mask : 2 ^ w - 2 ^ k = (2 ^ (w - k) - 1) <<< k := by
    rw [Nat.shiftLeft_eq, Nat.sub_mul, Nat.one_mul, ← Nat.pow_add, Nat.sub_add_cancel le]
  apply Nat.eq_of_testBit_eq
  intro i
  rw [mask, Nat.testBit_and, Nat.testBit_shiftLeft, ← Nat.shiftRight_eq_div_pow, ← Nat.shiftLeft_eq, Nat.testBit_shiftLeft,
    Nat.testBit_shiftRight, Nat.testBit_two_pow_sub_one]
  by_cases low : k ≤ i
  · by_cases high : i - k < w - k
    · simp [low, high, Nat.add_sub_of_le low]
    · have clear : x.testBit i = false :=
        Nat.testBit_lt_two_pow (word.trans_le (Nat.pow_le_pow_right (by decide) (by omega)))
      simp [low, high, clear, Nat.add_sub_of_le low]
  · simp [low]

theorem or_lowMask (x k : Nat) : x ||| (2 ^ k - 1) = x / 2 ^ k * 2 ^ k + (2 ^ k - 1) := by
  have low : 2 ^ k - 1 < 2 ^ k := Nat.sub_lt (Nat.two_pow_pos k) Nat.one_pos
  rw [Nat.mul_comm, Nat.two_pow_add_eq_or_of_lt low, Nat.mul_comm, ← Nat.shiftRight_eq_div_pow, ← Nat.shiftLeft_eq]
  apply Nat.eq_of_testBit_eq
  intro i
  rw [Nat.testBit_or, Nat.testBit_or, Nat.testBit_shiftLeft, Nat.testBit_shiftRight, Nat.testBit_two_pow_sub_one]
  by_cases lt : i < k
  · simp [lt]
  · simp [lt, Nat.not_lt.mp lt, Nat.add_sub_of_le (Nat.not_lt.mp lt)]

/-! ## Rounding up in a word and orders of sizes

A size is rounded up to an alignment by adding the mask and clearing the low bits.  On a
word of `w` bits the addition can wrap, and then the result is zero.  The order of a size is
the least power of two of units that holds it.
-/

/-- Reduction of a value to the range of an `unsigned int`. -/
def u32 (n : Nat) : Nat := n % 2 ^ 32

theorem u32_of_lt {n : Nat} (h : n < 2 ^ 32) : u32 n = n := Nat.mod_eq_of_lt h

theorem u32_lt (n : Nat) : u32 n < 2 ^ 32 := Nat.mod_lt _ (by decide)

/-- The position of the most significant set bit, counted from one, and zero for zero. -/
def fls (x : Nat) : Nat := if x = 0 then 0 else x.log2 + 1

theorem fls_le_iff {x k : Nat} : fls x ≤ k ↔ x < 2 ^ k := by
  unfold fls
  split
  · rename_i zero
    simp [zero]
  · rename_i pos
    exact Nat.log2_lt pos

/-- `(x + (a - 1)) & ~(a - 1)` on a word of `w` bits. -/
def alignWord (w x a : Nat) : Nat := (x + (a - 1)) % 2 ^ w &&& (2 ^ w - 1 - (a - 1))

section Aligned

variable {w k x m : Nat}

theorem alignWord_pow (le : k ≤ w) : alignWord w x (2 ^ k) = (x + (2 ^ k - 1)) % 2 ^ w / 2 ^ k * 2 ^ k := by
  have mask : 2 ^ w - 1 - (2 ^ k - 1) = 2 ^ w - 2 ^ k := by
    have pos := Nat.two_pow_pos k
    omega
  rw [alignWord, mask]
  exact and_highMask (Nat.mod_lt _ (Nat.two_pow_pos w)) le

theorem dvd_alignWord (le : k ≤ w) : 2 ^ k ∣ alignWord w x (2 ^ k) := by
  rw [alignWord_pow le]
  exact Nat.dvd_mul_left _ _

theorem alignWord_of_room (le : k ≤ w) (room : x + (2 ^ k - 1) < 2 ^ w) :
    alignWord w x (2 ^ k) = (x + (2 ^ k - 1)) / 2 ^ k * 2 ^ k := by
  rw [alignWord_pow le, Nat.mod_eq_of_lt room]

theorem le_alignWord (le : k ≤ w) (room : x + (2 ^ k - 1) < 2 ^ w) : x ≤ alignWord w x (2 ^ k) := by
  have pos := Nat.two_pow_pos k
  have floor := Nat.div_add_mod (x + (2 ^ k - 1)) (2 ^ k)
  have rest := Nat.mod_lt (x + (2 ^ k - 1)) pos
  rw [alignWord_of_room le room, Nat.mul_comm]
  omega

/-- Rounding up gives the least multiple that is not below. -/
theorem alignWord_le (le : k ≤ w) (above : x ≤ m) (unit : 2 ^ k ∣ m) : alignWord w x (2 ^ k) ≤ m := by
  have pos := Nat.two_pow_pos k
  obtain ⟨q, rfl⟩ := unit
  have reduced : (x + (2 ^ k - 1)) % 2 ^ w ≤ x + (2 ^ k - 1) := Nat.mod_le _ _
  have below : (x + (2 ^ k - 1)) % 2 ^ w / 2 ^ k ≤ q := by
    apply Nat.le_of_lt_succ
    apply Nat.div_lt_of_lt_mul
    rw [Nat.mul_succ]
    omega
  rw [alignWord_pow le, Nat.mul_comm]
  exact Nat.mul_le_mul_left _ below

theorem alignWord_lt (le : k ≤ w) : alignWord w x (2 ^ k) < x + 2 ^ k := by
  have pos := Nat.two_pow_pos k
  have reduced : (x + (2 ^ k - 1)) % 2 ^ w ≤ x + (2 ^ k - 1) := Nat.mod_le _ _
  have floor := Nat.div_mul_le_self ((x + (2 ^ k - 1)) % 2 ^ w) (2 ^ k)
  rw [alignWord_pow le]
  omega

/-- When the addition wraps nothing is left above the mask. -/
theorem alignWord_wrap (le : k ≤ w) (word : x < 2 ^ w) (wrap : 2 ^ w ≤ x + (2 ^ k - 1)) : alignWord w x (2 ^ k) = 0 := by
  have pos := Nat.two_pow_pos k
  have small : 2 ^ k ≤ 2 ^ w := Nat.pow_le_pow_right (by decide) le
  have reduced : (x + (2 ^ k - 1)) % 2 ^ w < 2 ^ k := by
    rw [Nat.mod_eq_sub_mod wrap, Nat.mod_eq_of_lt (by omega)]
    omega
  rw [alignWord_pow le, Nat.div_eq_of_lt reduced, Nat.zero_mul]

theorem alignWord_self (le : k ≤ w) (word : x < 2 ^ w) (unit : 2 ^ k ∣ x) : alignWord w x (2 ^ k) = x := by
  have pos := Nat.two_pow_pos k
  obtain ⟨q, rfl⟩ := unit
  have room : 2 ^ k * q + (2 ^ k - 1) < 2 ^ w := by
    obtain ⟨d, rfl⟩ := Nat.exists_eq_add_of_le le
    have fits : q < 2 ^ d := by
      rw [Nat.pow_add] at word
      exact Nat.lt_of_mul_lt_mul_left word
    calc 2 ^ k * q + (2 ^ k - 1) < 2 ^ k * (q + 1) := by
          rw [Nat.mul_succ]
          omega
      _ ≤ 2 ^ k * 2 ^ d := Nat.mul_le_mul_left _ fits
      _ = 2 ^ (k + d) := (Nat.pow_add 2 k d).symm
  exact Nat.le_antisymm (alignWord_le le le_rfl (Nat.dvd_mul_right _ _)) (le_alignWord le room)

end Aligned

end Miracle
