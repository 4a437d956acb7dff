import Mathlib.Data.Nat.Log
import Mathlib.Tactic

/-! # Scaling by divisions

A number is divided by a base, and the remainder is dropped, until the number is below a bound.  What
is left stands for the first number, with an error that is small against it when the bound is far
above the base.
-/

namespace Miracle.Scale

/-- How often a number is divided before it is below the bound. -/
def steps (bound d x : Nat) : Nat := Nat.clog d (x / bound + 1)

def scaled (bound d x : Nat) : Nat := x / d ^ steps bound d x

section

variable {bound d x k : Nat} (two : 1 < d) (pos : 0 < bound)

include two pos

theorem steps_le_iff : steps bound d x ≤ k ↔ x / d ^ k < bound := by
  have power : 0 < d ^ k := Nat.pow_pos (by omega)
  rw [steps, Nat.clog_le_iff_le_pow two, Nat.succ_le_iff, Nat.div_lt_iff_lt_mul pos, Nat.div_lt_iff_lt_mul power, Nat.mul_comm]

theorem steps_of_lt (small : x < bound) : steps bound d x = 0 := by
  rw [← Nat.le_zero, steps_le_iff two pos, Nat.pow_zero, Nat.div_one]
  exact small

theorem steps_of_le (big : bound ≤ x) : steps bound d x = steps bound d (x / d) + 1 := by
  apply Nat.le_antisymm
  · rw [steps_le_iff two pos, Nat.pow_succ', ← Nat.div_div_eq_div_mul, ← steps_le_iff two pos]
  · obtain ⟨k, eq⟩ : ∃ k, steps bound d x = k + 1 := by
      apply Nat.exists_eq_add_one_of_ne_zero
      intro none
      have small := (steps_le_iff two pos).mp none.le
      rw [Nat.pow_zero, Nat.div_one] at small
      omega
    have enough := (steps_le_iff two pos).mp eq.le
    rw [Nat.pow_succ', ← Nat.div_div_eq_div_mul, ← steps_le_iff two pos] at enough
    omega

theorem scaled_of_lt (small : x < bound) : scaled bound d x = x := by
  rw [scaled, steps_of_lt two pos small, Nat.pow_zero, Nat.div_one]

theorem scaled_of_le (big : bound ≤ x) : scaled bound d x = scaled bound d (x / d) := by
  rw [scaled, steps_of_le two pos big, Nat.pow_succ', ← Nat.div_div_eq_div_mul, scaled]

/-- One division is enough for one digit of the base. -/
theorem steps_le_of_lt (less : x < d ^ k) : steps bound d x ≤ k := by
  rw [steps_le_iff two pos, Nat.div_eq_of_lt less]
  exact pos

theorem scaled_lt : scaled bound d x < bound := (steps_le_iff two pos).mp le_rfl

/-- Before the last division the bound was reached. -/
theorem bound_le (divided : steps bound d x ≠ 0) : bound ≤ x / d ^ (steps bound d x - 1) := by
  by_contra less
  have before := (steps_le_iff two pos).mpr (Nat.lt_of_not_le less)
  omega

theorem div_le_scaled (divided : steps bound d x ≠ 0) : bound / d ≤ scaled bound d x := by
  have before := bound_le two pos divided
  have last : d ^ steps bound d x = d ^ (steps bound d x - 1) * d := by
    rw [← Nat.pow_succ]
    congr 1
    omega
  rw [scaled, last, ← Nat.div_div_eq_div_mul]
  exact Nat.div_le_div_right before

theorem scaled_pos (some : 0 < x) (above : d ≤ bound) : 0 < scaled bound d x := by
  by_cases divided : steps bound d x = 0
  · rw [scaled, divided, Nat.pow_zero, Nat.div_one]
    exact some
  · exact (Nat.div_pos above (by omega)).trans_le (div_le_scaled two pos divided)

omit two pos in
theorem scaled_le : scaled bound d x * d ^ steps bound d x ≤ x := Nat.div_mul_le_self _ _

/-- The error is one part in `bound / d`. -/
theorem le_scaled : x * (bound / d) ≤ scaled bound d x * d ^ steps bound d x * (bound / d + 1) := by
  by_cases divided : steps bound d x = 0
  · rw [scaled, divided, Nat.pow_zero, Nat.div_one, Nat.mul_one]
    exact Nat.mul_le_mul_left _ (Nat.le_succ _)
  · have large := div_le_scaled two pos divided
    have power : 0 < d ^ steps bound d x := Nat.pow_pos (by omega)
    have less : x < (scaled bound d x + 1) * d ^ steps bound d x := by
      rw [Nat.mul_comm]
      exact Nat.lt_mul_div_succ x power
    calc x * (bound / d) ≤ (scaled bound d x + 1) * d ^ steps bound d x * (bound / d) := Nat.mul_le_mul_right _ less.le
      _ = d ^ steps bound d x * (scaled bound d x * (bound / d) + bound / d) := by ring
      _ ≤ d ^ steps bound d x * (scaled bound d x * (bound / d) + scaled bound d x) :=
          Nat.mul_le_mul_left _ (Nat.add_le_add_left large _)
      _ = scaled bound d x * d ^ steps bound d x * (bound / d + 1) := by ring

end

variable {bound d x y : Nat}

/-- The scaled factors of a product. -/
theorem scaled_mul_le : scaled bound d x * scaled bound d y * d ^ (steps bound d x + steps bound d y) ≤ x * y := by
  calc scaled bound d x * scaled bound d y * d ^ (steps bound d x + steps bound d y)
      = scaled bound d x * d ^ steps bound d x * (scaled bound d y * d ^ steps bound d y) := by
        rw [Nat.pow_add]
        ring
    _ ≤ x * y := Nat.mul_le_mul scaled_le scaled_le

theorem le_scaled_mul (two : 1 < d) (pos : 0 < bound) : x * y * (bound / d) ^ 2 ≤
    scaled bound d x * scaled bound d y * d ^ (steps bound d x + steps bound d y) * (bound / d + 1) ^ 2 := by
  calc x * y * (bound / d) ^ 2 = x * (bound / d) * (y * (bound / d)) := by ring
    _ ≤ scaled bound d x * d ^ steps bound d x * (bound / d + 1) * (scaled bound d y * d ^ steps bound d y * (bound / d + 1)) :=
        Nat.mul_le_mul (le_scaled two pos) (le_scaled two pos)
    _ = scaled bound d x * scaled bound d y * d ^ (steps bound d x + steps bound d y) * (bound / d + 1) ^ 2 := by
        rw [Nat.pow_add]
        ring

end Miracle.Scale
