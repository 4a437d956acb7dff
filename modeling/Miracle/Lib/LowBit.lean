import Miracle.Lib.BitScan

/-! # The lowest set bit of a word

A word that is not zero is an odd number, shifted to its lowest set bit.  Negation, subtraction of
one and complement meet at that bit, which gives the usual masks.
-/

namespace Miracle.LowBit

open BitScan

variable {w : Nat} {x : BitVec w} {k m : Nat}

/-- The place of the lowest set bit, for a word that is not zero. -/
def lowest (x : BitVec w) : Nat := firstFrom x.getLsbD true w 0

theorem exists_bit (nonzero : x ≠ 0) : ∃ i < w, x.getLsbD i = true := by
  by_contra none
  push Not at none
  refine nonzero (BitVec.eq_of_getLsbD_eq fun i inside => ?_)
  rw [Bool.eq_false_iff.mpr (none i inside)]
  simp

theorem lowest_spec (nonzero : x ≠ 0) : lowest x < w ∧ x.getLsbD (lowest x) = true ∧ ∀ j < lowest x, x.getLsbD j = false := by
  obtain ⟨-, -, found, before⟩ := firstFrom_spec x.getLsbD true w 0
  obtain ⟨i, inside, set⟩ := exists_bit nonzero
  have le : lowest x ≤ i := by
    by_contra after
    have clear := before i (Nat.zero_le i) (Nat.not_le.mp after)
    rw [set] at clear
    cases clear
  have lt : lowest x < w := le.trans_lt inside
  exact ⟨lt, found (by rw [Nat.zero_add]; exact lt), fun j below => before j (Nat.zero_le j) below⟩

theorem dvd_of_clear (clear : ∀ j < k, x.getLsbD j = false) : 2 ^ k ∣ x.toNat := by
  apply Nat.dvd_of_mod_eq_zero
  apply Nat.eq_of_testBit_eq
  intro j
  rw [Nat.testBit_mod_two_pow, Nat.zero_testBit]
  by_cases below : j < k
  · rw [decide_eq_true below, Bool.true_and]
    exact clear j below
  · rw [decide_eq_false below, Bool.false_and]

/-- A word with bit `k` and none below is an odd number, shifted. -/
theorem toNat_of_bit (set : x.getLsbD k = true) (clear : ∀ j < k, x.getLsbD j = false) : ∃ m, x.toNat = 2 ^ k * (2 * m + 1) := by
  obtain ⟨q, eq⟩ := dvd_of_clear clear
  have odd : q.testBit 0 = true := by
    have bit : x.toNat.testBit k = true := set
    rw [eq, Nat.testBit_two_pow_mul, decide_eq_true le_rfl, Nat.sub_self] at bit
    exact bit
  rw [Nat.testBit_zero, decide_eq_true_eq] at odd
  refine ⟨q / 2, ?_⟩
  have half : 2 * (q / 2) + 1 = q := by omega
  rw [half, eq]

theorem toNat_eq (nonzero : x ≠ 0) : ∃ m, x.toNat = 2 ^ lowest x * (2 * m + 1) := by
  obtain ⟨-, set, clear⟩ := lowest_spec nonzero
  exact toNat_of_bit set clear

/-- Subtraction of one sets the bits below the lowest one and clears it. -/
theorem getLsbD_sub_one (eq : x.toNat = 2 ^ k * (2 * m + 1)) (i : Nat) :
    (x - 1#w).getLsbD i = if i < k then decide (i < w) else if i = k then false else x.getLsbD i := by
  have pos : 0 < 2 ^ k := Nat.two_pow_pos k
  have some : 0 < x.toNat := by
    rw [eq]
    exact Nat.mul_pos pos (Nat.succ_pos _)
  have below : k < w := by
    by_contra beyond
    have le : 2 ^ w ≤ 2 ^ k := Nat.pow_le_pow_right (by decide) (Nat.not_lt.mp beyond)
    have le' : 2 ^ k ≤ x.toNat := by
      rw [eq]
      exact Nat.le_mul_of_pos_right _ (Nat.succ_pos _)
    exact absurd x.isLt (by omega)
  have one : (1#w).toNat = 1 := by
    rw [BitVec.toNat_ofNat]
    exact Nat.mod_eq_of_lt (Nat.one_lt_two_pow (by omega))
  have sub : (x - 1#w).toNat = 2 ^ (k + 1) * m + (2 ^ k - 1) := by
    have le : 1#w ≤ x := BitVec.le_def.mpr (by rw [one]; exact some)
    rw [BitVec.toNat_sub_of_le le, one, eq, Nat.mul_add, Nat.mul_one, Nat.pow_succ, Nat.mul_assoc]
    omega
  have low : 2 ^ k - 1 < 2 ^ (k + 1) := by
    rw [Nat.pow_succ]
    omega
  rw [BitVec.getLsbD, sub, Nat.testBit_two_pow_mul_add m low, BitVec.getLsbD, eq, Nat.testBit_two_pow_sub_one]
  by_cases here : i < k
  · have inside : i < w := here.trans below
    rw [if_pos here, if_pos (by omega), decide_eq_true here, decide_eq_true inside]
  · rw [if_neg here]
    by_cases at_ : i = k
    · rw [if_pos at_, if_pos (by omega), decide_eq_false here]
    · have above : ¬ i < k + 1 := by omega
      have next : i - k = i - (k + 1) + 1 := by omega
      rw [if_neg at_, if_neg above, Nat.testBit_two_pow_mul, decide_eq_true (by omega), Bool.true_and, next, Nat.testBit_succ]
      congr 1
      omega

/-- `x & -x` is the lowest set bit. -/
theorem isolate (eq : x.toNat = 2 ^ k * (2 * m + 1)) : (x &&& -x).toNat = 2 ^ k := by
  have neg : -x = ~~~(x - 1#w) := by rw [BitVec.not_sub_one_eq_not_add_one, BitVec.neg_eq_not_add]
  have bit (i : Nat) : x.getLsbD i = (decide (k ≤ i) && (2 * m + 1).testBit (i - k)) := by
    rw [BitVec.getLsbD, eq, Nat.testBit_two_pow_mul]
  apply Nat.eq_of_testBit_eq
  intro i
  change (x &&& -x).getLsbD i = _
  rw [neg, BitVec.getLsbD_and, BitVec.getLsbD_not, getLsbD_sub_one eq, Nat.testBit_two_pow]
  by_cases here : i < k
  · have other : k ≠ i := by omega
    rw [bit, decide_eq_false (by omega), decide_eq_false other, Bool.false_and, Bool.false_and]
  · rw [if_neg here]
    by_cases at_ : i = k
    · subst at_
      have set : x.getLsbD i = true := by
        rw [bit, decide_eq_true le_rfl, Nat.sub_self, Nat.testBit_zero]
        simp
      have inside : i < w := BitVec.lt_of_getLsbD set
      rw [if_pos rfl, set, decide_eq_true inside, decide_eq_true rfl]
      rfl
    · rw [if_neg at_, decide_eq_false (Ne.symm at_)]
      cases x.getLsbD i <;> simp

/-- `(x - 1) & ~x` is the mask of the bits below the lowest one. -/
theorem below_mask (eq : x.toNat = 2 ^ k * (2 * m + 1)) : ((x - 1#w) &&& ~~~x).toNat = 2 ^ k - 1 := by
  have bit (i : Nat) : x.getLsbD i = (decide (k ≤ i) && (2 * m + 1).testBit (i - k)) := by
    rw [BitVec.getLsbD, eq, Nat.testBit_two_pow_mul]
  have inside : k < w := by
    have set : x.getLsbD k = true := by
      rw [bit, decide_eq_true le_rfl, Nat.sub_self, Nat.testBit_zero]
      simp
    exact BitVec.lt_of_getLsbD set
  apply Nat.eq_of_testBit_eq
  intro i
  change ((x - 1#w) &&& ~~~x).getLsbD i = _
  rw [BitVec.getLsbD_and, BitVec.getLsbD_not, getLsbD_sub_one eq, Nat.testBit_two_pow_sub_one]
  by_cases here : i < k
  · rw [if_pos here, bit, decide_eq_true (by omega : i < w), decide_eq_false (by omega), decide_eq_true here]
    rfl
  · rw [if_neg here, decide_eq_false here]
    by_cases at_ : i = k
    · rw [if_pos at_, Bool.false_and]
    · rw [if_neg at_]
      cases x.getLsbD i <;> simp

end Miracle.LowBit
