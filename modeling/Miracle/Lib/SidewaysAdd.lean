import Mathlib.Data.Nat.Bitwise
import Mathlib.Tactic

/-! # Adding the digits of a number sideways

The digits of a number in base `2 ^ s` are added in pairs, which gives the digits in base
`2 ^ (2 * s)` of a number with the same sum of digits.  A mask keeps every other digit.
-/

namespace Miracle.SidewaysAdd

/-- The sum of the `k` lowest digits. -/
def digitSum (b : Nat) : Nat → Nat → Nat
  | 0, _ => 0
  | k + 1, x => x % b + digitSum b k (x / b)

/-- Ones in every other digit of `s` bits. -/
def pairMask (s : Nat) : Nat → Nat
  | 0 => 0
  | k + 1 => (2 ^ s - 1) + 2 ^ (2 * s) * pairMask s k

/-- The digits of `s` bits, added in pairs. -/
def pairs (s k x : Nat) : Nat := (x &&& pairMask s k) + (x / 2 ^ s &&& pairMask s k)

/-- No digit is above `m`. -/
def DigitsLe (b m x : Nat) : Prop := ∀ i, x / b ^ i % b ≤ m

variable {s k x m : Nat}

theorem pow_double (s : Nat) : 2 ^ (2 * s) = 2 ^ s * 2 ^ s := by rw [two_mul, pow_add]

theorem div_twice (s x : Nat) : x / 2 ^ s / 2 ^ s = x / 2 ^ (2 * s) := by rw [Nat.div_div_eq_div_mul, ← pow_double]

theorem div_swap (s x : Nat) : x / 2 ^ s / 2 ^ (2 * s) = x / 2 ^ (2 * s) / 2 ^ s := by
  rw [Nat.div_div_eq_div_mul, Nat.div_div_eq_div_mul, Nat.mul_comm]

theorem pairMask_mod : pairMask s (k + 1) % 2 ^ (2 * s) = 2 ^ s - 1 := by
  have pos : 0 < 2 ^ s := Nat.two_pow_pos s
  have less : 2 ^ s - 1 < 2 ^ (2 * s) := by
    rw [pow_double]
    exact (Nat.sub_lt pos Nat.one_pos).trans_le (Nat.le_mul_of_pos_left _ pos)
  rw [pairMask, Nat.add_mul_mod_self_left, Nat.mod_eq_of_lt less]

theorem pairMask_div : pairMask s (k + 1) / 2 ^ (2 * s) = pairMask s k := by
  have pos : 0 < 2 ^ s := Nat.two_pow_pos s
  have less : 2 ^ s - 1 < 2 ^ (2 * s) := by
    rw [pow_double]
    exact (Nat.sub_lt pos Nat.one_pos).trans_le (Nat.le_mul_of_pos_left _ pos)
  rw [pairMask, Nat.add_mul_div_left _ _ (Nat.two_pow_pos _), Nat.div_eq_of_lt less, Nat.zero_add]

/-- The mask keeps the lowest digit and works on what is above the second one. -/
theorem and_pairMask (s k x : Nat) : x &&& pairMask s (k + 1) = x % 2 ^ s + 2 ^ (2 * s) * (x / 2 ^ (2 * s) &&& pairMask s k) := by
  have low : (x &&& pairMask s (k + 1)) % 2 ^ (2 * s) = x % 2 ^ s := by
    rw [Nat.and_mod_two_pow, pairMask_mod, Nat.and_two_pow_sub_one_eq_mod, pow_double, Nat.mod_mul_right_mod]
  have high : (x &&& pairMask s (k + 1)) / 2 ^ (2 * s) = x / 2 ^ (2 * s) &&& pairMask s k := by
    rw [Nat.and_div_two_pow, pairMask_div]
  rw [← low, ← high, Nat.mod_add_div]

theorem pairs_succ (s k x : Nat) :
    pairs s (k + 1) x = (x % 2 ^ s + x / 2 ^ s % 2 ^ s) + 2 ^ (2 * s) * pairs s k (x / 2 ^ (2 * s)) := by
  rw [pairs, and_pairMask, and_pairMask, div_swap, pairs]
  ring

/-- Two digits leave room in a digit of the double size. -/
theorem pair_lt (s x y : Nat) (room : 0 < s) : x % 2 ^ s + y % 2 ^ s < 2 ^ (2 * s) := by
  have two : 2 ≤ 2 ^ s := Nat.le_self_pow room.ne' 2
  have first := Nat.mod_lt x (Nat.two_pow_pos s)
  have second := Nat.mod_lt y (Nat.two_pow_pos s)
  rw [pow_double]
  have double : 2 * 2 ^ s ≤ 2 ^ s * 2 ^ s := Nat.mul_le_mul_right _ two
  omega

theorem digitSum_pairs (room : 0 < s) (k x : Nat) : digitSum (2 ^ (2 * s)) k (pairs s k x) = digitSum (2 ^ s) (2 * k) x := by
  induction k generalizing x with
  | zero => rfl
  | succ k ih =>
      have less := pair_lt s x (x / 2 ^ s) room
      rw [pairs_succ, digitSum, Nat.add_mul_mod_self_left, Nat.add_mul_div_left _ _ (Nat.two_pow_pos _), Nat.mod_eq_of_lt less,
        Nat.div_eq_of_lt less, Nat.zero_add, ih, Nat.mul_succ, digitSum, digitSum, div_twice, Nat.add_assoc]

/-- A number is its even digits and its odd ones. -/
theorem split_pairs (small : x < 2 ^ (2 * s * k)) : x = (x &&& pairMask s k) + 2 ^ s * (x / 2 ^ s &&& pairMask s k) := by
  induction k generalizing x with
  | zero =>
      obtain rfl : x = 0 := by simpa using small
      simp [pairMask]
  | succ k ih =>
      have less : x / 2 ^ (2 * s) < 2 ^ (2 * s * k) := by
        rw [Nat.div_lt_iff_lt_mul (Nat.two_pow_pos _), ← pow_add]
        exact small
      have digits : x = x % 2 ^ s + 2 ^ s * (x / 2 ^ s % 2 ^ s) + 2 ^ (2 * s) * (x / 2 ^ (2 * s)) := by
        have outer := Nat.mod_add_div x (2 ^ s)
        have inner := Nat.mod_add_div (x / 2 ^ s) (2 ^ s)
        rw [div_twice] at inner
        conv_lhs => rw [← outer, ← inner]
        rw [pow_double]
        ring
      rw [and_pairMask, and_pairMask, div_swap]
      conv_lhs => rw [digits, ih less]
      ring

theorem subtract_pairs (small : x < 2 ^ (2 * k)) : x - (x / 2 &&& pairMask 1 k) = pairs 1 k x := by
  have split := @split_pairs 1 k x (by simpa using small)
  rw [pow_one] at split
  rw [pairs, pow_one]
  omega

theorem DigitsLe.digit {b : Nat} (le : DigitsLe b m x) : x % b ≤ m := by
  have first := le 0
  rwa [pow_zero, Nat.div_one] at first

theorem DigitsLe.div {b : Nat} (le : DigitsLe b m x) : DigitsLe b m (x / b) := by
  intro i
  have next := le (i + 1)
  rwa [pow_succ', ← Nat.div_div_eq_div_mul] at next

theorem digits_pairs (room : 0 < s) (le : DigitsLe (2 ^ s) m x) : DigitsLe (2 ^ (2 * s)) (2 * m) (pairs s k x) := by
  intro i
  induction k generalizing i x with
  | zero => simp [pairs, pairMask]
  | succ k ih =>
      have less := pair_lt s x (x / 2 ^ s) room
      rw [pairs_succ]
      cases i with
      | zero =>
          have first := le.digit
          have second := le.div.digit
          rw [pow_zero, Nat.div_one, Nat.add_mul_mod_self_left, Nat.mod_eq_of_lt less]
          omega
      | succ i =>
          rw [pow_succ', ← Nat.div_div_eq_div_mul, Nat.add_mul_div_left _ _ (Nat.two_pow_pos _), Nat.div_eq_of_lt less, Nat.zero_add]
          exact ih (div_twice s x ▸ le.div.div) i

/-- Small digits are added in pairs before the mask, without a carry. -/
theorem add_pairs (small : 2 * m < 2 ^ s) (le : DigitsLe (2 ^ s) m x) : (x + x / 2 ^ s) &&& pairMask s k = pairs s k x := by
  induction k generalizing x with
  | zero => simp [pairs, pairMask]
  | succ k ih =>
      have pos : 0 < 2 ^ s := Nat.two_pow_pos s
      have first := le.digit
      have second := le.div.digit
      have third := le.div.div.digit
      -- the two lowest digits of both terms
      have whole : x + x / 2 ^ s = (x % 2 ^ s + x / 2 ^ s % 2 ^ s) +
          2 ^ s * ((x / 2 ^ s % 2 ^ s + x / 2 ^ s / 2 ^ s % 2 ^ s) + 2 ^ s * (x / 2 ^ (2 * s) + x / 2 ^ (2 * s) / 2 ^ s)) := by
        have one := Nat.mod_add_div x (2 ^ s)
        have two := Nat.mod_add_div (x / 2 ^ s) (2 ^ s)
        have three := Nat.mod_add_div (x / 2 ^ s / 2 ^ s) (2 ^ s)
        rw [← div_twice]
        conv_lhs => rw [← one]
        conv_lhs => rw [Nat.add_mul_div_left _ _ pos, Nat.div_eq_of_lt (Nat.mod_lt _ pos), Nat.zero_add]
        generalize x / 2 ^ s / 2 ^ s = z at *
        generalize x / 2 ^ s = y at *
        nlinarith
      have low : (x + x / 2 ^ s) % 2 ^ s = x % 2 ^ s + x / 2 ^ s % 2 ^ s := by
        rw [whole, Nat.add_mul_mod_self_left, Nat.mod_eq_of_lt (by omega)]
      have high : (x + x / 2 ^ s) / 2 ^ (2 * s) = x / 2 ^ (2 * s) + x / 2 ^ (2 * s) / 2 ^ s := by
        have lower : x % 2 ^ s + x / 2 ^ s % 2 ^ s < 2 ^ s := by omega
        have middle : x / 2 ^ s % 2 ^ s + x / 2 ^ s / 2 ^ s % 2 ^ s < 2 ^ s := by omega
        rw [whole, ← div_twice, Nat.add_mul_div_left _ _ pos, Nat.div_eq_of_lt lower, Nat.zero_add, Nat.add_mul_div_left _ _ pos,
          Nat.div_eq_of_lt middle, Nat.zero_add]
      rw [and_pairMask, low, high, ih (div_twice s x ▸ le.div.div), pairs_succ]

/-- The digits of a binary number are its bits. -/
theorem digitSum_bits (k x : Nat) : digitSum 2 k x = (List.range k).countP x.testBit := by
  induction k generalizing x with
  | zero => rfl
  | succ k ih =>
      have next : x.testBit ∘ Nat.succ = (x / 2).testBit := by
        funext i
        exact Nat.testBit_succ x i
      rw [List.range_succ_eq_map, List.countP_cons, List.countP_map, next, digitSum, ih, Nat.add_comm, Nat.testBit_zero]
      congr 1
      rcases Nat.mod_two_eq_zero_or_one x with even | odd
      · simp [even]
      · simp [odd]

end Miracle.SidewaysAdd
