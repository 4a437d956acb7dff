import Mathlib.Data.Nat.Bitwise
import Miracle.Lib.LowBit

/-! # Greatest common divisors

The two variants of `gcd` in `gcd.c`, and `lcm`.  A loop comes with a number of rounds and has no
result when they run out.  The second variant keeps both numbers multiples of the lowest set bit of
either, and that bit stands where the first one has a one.
-/

namespace Miracle.Arith

open LowBit

abbrev Word := BitVec 64

/-- `__ffs`, for a word with a set bit. -/
def ffs (x : Word) : Nat := lowest x

/-! ## With `__ffs` -/

/-- The loop of `gcd`. -/
def ffsLoop (r : Word) : Nat → Word → Word → Option Word
  | 0, _, _ => none
  | rounds + 1, a, b =>
      let a := a >>> ffs a
      if a = 1 then some (r &&& -r)
      else if a = b then some (a <<< ffs r)
      else
        let (a, b) := if a < b then (b, a) else (a, b)
        ffsLoop r rounds (a - b) b

/-- `gcd`, where `__ffs` is efficient. -/
def gcdFfs (a b : Word) : Option Word :=
  let r := a ||| b
  if a = 0 ∨ b = 0 then some r
  else
    let b := b >>> ffs b
    if b = 1 then some (r &&& -r) else ffsLoop r (a.toNat + b.toNat) a b

/-! ## With loops -/

/-- `while (!(a & r)) a >>= 1`. -/
def shiftTo (r : Word) : Nat → Word → Option Word
  | 0, _ => none
  | rounds + 1, a => if a &&& r = 0 then shiftTo r rounds (a >>> 1) else some a

/-- The loop of `gcd`. -/
def evenOddLoop (r : Word) : Nat → Word → Word → Option Word
  | 0, _, _ => none
  | rounds + 1, a, b => do
      let a ← shiftTo r 64 a
      if a = r then some r
      else if a = b then some a
      else
        let (a, b) := if a < b then (b, a) else (a, b)
        let a := (a - b) >>> 1
        let a := if a &&& r ≠ 0 then a + b else a
        evenOddLoop r rounds (a >>> 1) b

/-- `gcd`, where it is not. -/
def gcdEvenOdd (a b : Word) : Option Word :=
  let r := a ||| b
  if a = 0 ∨ b = 0 then some r
  else do
    let r := r &&& -r
    let b ← shiftTo r 64 b
    if b = r then some r else evenOddLoop r (a.toNat + b.toNat) a b

/-! ## Multiples -/

/-- `lcm`, with one of the two. -/
def lcm (gcd : Word → Word → Option Word) (a b : Word) : Option Word :=
  if a ≠ 0 ∧ b ≠ 0 then (gcd a b).map fun g => a / g * b else some 0

def lcmNotZero (gcd : Word → Word → Option Word) (a b : Word) : Option Word := do
  let l ← lcm gcd a b
  if l ≠ 0 then some l else some (if b ≠ 0 then b else a)

/-! ## Odd numbers -/

theorem gcd_two_pow_mul {y : Nat} (odd : y % 2 = 1) (k x : Nat) : (2 ^ k * x).gcd y = x.gcd y := by
  have coprime : (2 ^ k).Coprime y := Nat.Coprime.pow_left k (Nat.coprime_two_left.mpr (Nat.odd_iff.mpr odd))
  exact Nat.Coprime.gcd_mul_left_cancel x coprime

/-- A word without its trailing zeros. -/
theorem shiftRight_ffs {a : Word} (nonzero : a ≠ 0) : (a >>> ffs a).toNat % 2 = 1 ∧ a.toNat = 2 ^ ffs a * (a >>> ffs a).toNat := by
  obtain ⟨m, eq⟩ := toNat_eq nonzero
  have shifted : (a >>> ffs a).toNat = 2 * m + 1 := by
    rw [BitVec.toNat_ushiftRight, Nat.shiftRight_eq_div_pow, eq]
    exact Nat.mul_div_cancel_left _ (Nat.two_pow_pos _)
  rw [shifted]
  exact ⟨by omega, eq⟩

/-- The power of two that two words have in common. -/
theorem common_power {a b : Word} (nonzero : a ≠ 0) :
    ∃ x y, a.toNat = 2 ^ ffs (a ||| b) * x ∧ b.toNat = 2 ^ ffs (a ||| b) * y ∧ (x % 2 = 1 ∨ y % 2 = 1) := by
  have some : a ||| b ≠ 0 := by
    intro none
    obtain ⟨i, -, set⟩ := exists_bit nonzero
    have clear := congrArg (fun w : Word => w.getLsbD i) none
    simp only [BitVec.getLsbD_or, set, Bool.true_or] at clear
    simp at clear
  obtain ⟨-, set, clear⟩ := lowest_spec some
  have both (j : Nat) (below : j < ffs (a ||| b)) : a.getLsbD j = false ∧ b.getLsbD j = false := by
    have bit := clear j below
    rwa [BitVec.getLsbD_or, Bool.or_eq_false_iff] at bit
  obtain ⟨x, xIs⟩ := dvd_of_clear fun j below => (both j below).1
  obtain ⟨y, yIs⟩ := dvd_of_clear fun j below => (both j below).2
  have bit {c : Word} {z : Nat} (eq : c.toNat = 2 ^ ffs (a ||| b) * z) : c.getLsbD (ffs (a ||| b)) = decide (z % 2 = 1) := by
    rw [BitVec.getLsbD, eq, Nat.testBit_two_pow_mul, decide_eq_true le_rfl, Nat.sub_self, Nat.testBit_zero, Bool.true_and]
  refine ⟨x, y, xIs, yIs, ?_⟩
  have reached : a.getLsbD (ffs (a ||| b)) = true ∨ b.getLsbD (ffs (a ||| b)) = true := by
    rw [← Bool.or_eq_true, ← BitVec.getLsbD_or]
    exact set
  rwa [bit xIs, bit yIs, decide_eq_true_eq, decide_eq_true_eq] at reached

theorem sub_toNat {a b : Word} (le : b.toNat ≤ a.toNat) : (a - b).toNat = a.toNat - b.toNat :=
  BitVec.toNat_sub_of_le (BitVec.le_def.mpr le)

theorem nonzero_of_pos {a : Word} (pos : 0 < a.toNat) : a ≠ 0 := by
  rintro rfl
  exact absurd pos (by decide)

/-! ## The loop with `__ffs` -/

/-- The greatest common divisor stays what it is while the sum of the numbers falls. -/
theorem ffsLoop_eq {r : Word} (isolated : (r &&& -r).toNat = 2 ^ ffs r) {rounds : Nat} {a b : Word} (nonzero : a ≠ 0) (odd : b.toNat % 2 = 1)
    (enough : a.toNat + b.toNat ≤ rounds) (fits : 2 ^ ffs r * a.toNat.gcd b.toNat < 2 ^ 64) :
    ∃ d, ffsLoop r rounds a b = some d ∧ d.toNat = 2 ^ ffs r * a.toNat.gcd b.toNat := by
  induction rounds generalizing a b with
  | zero => omega
  | succ rounds ih =>
      obtain ⟨odd', eq⟩ := shiftRight_ffs nonzero
      rw [ffsLoop]
      generalize a >>> ffs a = c at odd' eq
      have same : a.toNat.gcd b.toNat = c.toNat.gcd b.toNat := by rw [eq, gcd_two_pow_mul odd]
      have le : c.toNat ≤ a.toNat := by
        rw [eq]
        exact Nat.le_mul_of_pos_left _ (Nat.two_pow_pos _)
      rw [same] at fits ⊢
      simp only
      by_cases one : c = 1
      · refine ⟨_, if_pos one, ?_⟩
        have unit : c.toNat = 1 := congrArg BitVec.toNat one
        rw [isolated, unit, Nat.gcd_one_left, Nat.mul_one]
      · rw [if_neg one]
        by_cases equal : c = b
        · refine ⟨_, if_pos equal, ?_⟩
          rw [← equal, Nat.gcd_self] at fits ⊢
          rw [BitVec.toNat_shiftLeft, Nat.shiftLeft_eq, Nat.mul_comm, Nat.mod_eq_of_lt fits]
        · have apart : c.toNat ≠ b.toNat := fun numbers => equal (BitVec.eq_of_toNat_eq numbers)
          rw [if_neg equal]
          by_cases less : c < b
          · have lt : c.toNat < b.toNat := BitVec.lt_def.mp less
            have diff := sub_toNat lt.le
            have kept : (b - c).toNat.gcd c.toNat = c.toNat.gcd b.toNat := by
              rw [diff, Nat.gcd_sub_self_left lt.le, Nat.gcd_comm]
            rw [← kept] at fits ⊢
            simp only [if_pos less]
            exact ih (nonzero_of_pos (by omega)) odd' (by omega) fits
          · have ge : b.toNat ≤ c.toNat := Nat.not_lt.mp fun lt => less (BitVec.lt_def.mpr lt)
            have diff := sub_toNat ge
            have kept : (c - b).toNat.gcd b.toNat = c.toNat.gcd b.toNat := by
              rw [diff, Nat.gcd_sub_self_left ge]
            rw [← kept] at fits ⊢
            simp only [if_neg less]
            exact ih (nonzero_of_pos (by omega)) odd (by omega) fits

/-! ## The loop without it -/

/-- The bit of a word at the place of a power of two. -/
theorem and_power {r a : Word} {k x : Nat} (power : r.toNat = 2 ^ k) (multiple : a.toNat = 2 ^ k * x) : a &&& r = 0 ↔ x % 2 = 0 := by
  have bit : a.toNat.testBit k = decide (x % 2 = 1) := by
    rw [multiple, Nat.testBit_two_pow_mul, decide_eq_true le_rfl, Nat.sub_self, Nat.testBit_zero, Bool.true_and]
  have value : (a &&& r).toNat = (decide (x % 2 = 1)).toNat * 2 ^ k := by rw [BitVec.toNat_and, power, Nat.and_two_pow, bit]
  constructor
  · intro zero
    have none : (a &&& r).toNat = 0 := by
      rw [zero]
      rfl
    rw [value] at none
    by_contra odd
    rw [decide_eq_true (by omega : x % 2 = 1), Bool.toNat_true, Nat.one_mul] at none
    exact absurd none (Nat.two_pow_pos k).ne'
  · intro even
    refine BitVec.eq_of_toNat_eq ?_
    rw [value, decide_eq_false (by omega : ¬ x % 2 = 1)]
    simp

theorem half_toNat {a : Word} {k x : Nat} (multiple : a.toNat = 2 ^ k * x) (even : x % 2 = 0) : (a >>> 1).toNat = 2 ^ k * (x / 2) := by
  have split : a.toNat = 2 * (2 ^ k * (x / 2)) := by
    have twice : x = 2 * (x / 2) := by omega
    rw [multiple, Nat.mul_left_comm, ← twice]
  rw [BitVec.toNat_ushiftRight, Nat.shiftRight_eq_div_pow, split]
  exact Nat.mul_div_cancel_left _ (by decide)

theorem shiftTo_eq {r : Word} {k : Nat} (power : r.toNat = 2 ^ k) {rounds : Nat} {a : Word} {x : Nat} (multiple : a.toNat = 2 ^ k * x)
    (pos : 0 < x) (enough : x < 2 ^ rounds) :
    ∃ a' j x', shiftTo r rounds a = some a' ∧ a'.toNat = 2 ^ k * x' ∧ x' % 2 = 1 ∧ x = 2 ^ j * x' := by
  induction rounds generalizing a x with
  | zero => omega
  | succ rounds ih =>
      rw [Nat.pow_succ] at enough
      rw [shiftTo]
      by_cases even : x % 2 = 0
      · rw [if_pos ((and_power power multiple).mpr even)]
        obtain ⟨a', j, x', run, is, odd, factors⟩ := ih (half_toNat multiple even) (by omega) (by omega)
        refine ⟨a', j + 1, x', run, is, odd, ?_⟩
        rw [Nat.pow_succ, Nat.mul_comm (2 ^ j), Nat.mul_assoc, ← factors]
        omega
      · rw [if_neg fun zero => even ((and_power power multiple).mp zero)]
        exact ⟨a, 0, x, rfl, multiple, by omega, (Nat.one_mul x).symm⟩

/-- The difference of two odd numbers, halved, made even and halved again. -/
theorem halved_step {r a b : Word} {k x y : Nat} (power : r.toNat = 2 ^ k) (aIs : a.toNat = 2 ^ k * x) (bIs : b.toNat = 2 ^ k * y)
    (odd : x % 2 = 1) (odd' : y % 2 = 1) (less : y < x) :
    ∃ z, ((if (a - b) >>> 1 &&& r ≠ 0 then (a - b) >>> 1 + b else (a - b) >>> 1) >>> 1).toNat = 2 ^ k * z ∧ 0 < z ∧ z < x ∧
      z.gcd y = x.gcd y := by
  have pos := Nat.two_pow_pos k
  have le : b.toNat ≤ a.toNat := by
    rw [aIs, bIs]
    exact Nat.mul_le_mul_left _ less.le
  have diff : (a - b).toNat = 2 ^ k * (x - y) := by rw [sub_toNat le, aIs, bIs, Nat.mul_sub]
  have half := half_toNat diff (by omega)
  have gcd_half : ((x - y) / 2).gcd y = x.gcd y := by
    have twice : 2 ^ 1 * ((x - y) / 2) = x - y := by omega
    rw [← gcd_two_pow_mul odd' 1, twice, Nat.gcd_sub_self_left less.le]
  by_cases even : (x - y) / 2 % 2 = 0
  · have clear := (and_power power half).mpr even
    refine ⟨(x - y) / 2 / 2, ?_, by omega, by omega, ?_⟩
    · rw [if_neg (not_not.mpr clear)]
      exact half_toNat half even
    · have twice : 2 ^ 1 * ((x - y) / 2 / 2) = (x - y) / 2 := by omega
      rw [← gcd_two_pow_mul odd' 1, twice, gcd_half]
  · have set : (a - b) >>> 1 &&& r ≠ 0 := fun zero => even ((and_power power half).mp zero)
    have sum : ((a - b) >>> 1 + b).toNat = 2 ^ k * ((x - y) / 2 + y) := by
      have total : 2 ^ k * ((x - y) / 2) + 2 ^ k * y = 2 ^ k * ((x - y) / 2 + y) := (Nat.mul_add _ _ _).symm
      have fits : 2 ^ k * ((x - y) / 2 + y) ≤ a.toNat := by
        rw [aIs]
        exact Nat.mul_le_mul_left _ (by omega)
      rw [BitVec.toNat_add, half, bIs, total]
      exact Nat.mod_eq_of_lt (fits.trans_lt a.isLt)
    refine ⟨((x - y) / 2 + y) / 2, ?_, by omega, by omega, ?_⟩
    · rw [if_pos set]
      exact half_toNat sum (by omega)
    · have twice : 2 ^ 1 * (((x - y) / 2 + y) / 2) = (x - y) / 2 + y := by omega
      rw [← gcd_two_pow_mul odd' 1, twice, Nat.gcd_add_self_left, gcd_half]

theorem evenOddLoop_eq {r : Word} {k : Nat} (power : r.toNat = 2 ^ k) {rounds : Nat} {a b : Word} {x y : Nat} (aIs : a.toNat = 2 ^ k * x)
    (bIs : b.toNat = 2 ^ k * y) (pos : 0 < x) (odd : y % 2 = 1) (enough : a.toNat + b.toNat ≤ rounds) :
    ∃ d, evenOddLoop r rounds a b = some d ∧ d.toNat = 2 ^ k * x.gcd y := by
  have unit := Nat.two_pow_pos k
  induction rounds generalizing a b x y with
  | zero =>
      have some : 0 < a.toNat := by
        rw [aIs]
        exact Nat.mul_pos unit pos
      omega
  | succ rounds ih =>
      have small : x < 2 ^ 64 := by
        have le : x ≤ a.toNat := by
          rw [aIs]
          exact Nat.le_mul_of_pos_left _ unit
        exact le.trans_lt a.isLt
      obtain ⟨c, j, x', run, cIs, odd', factors⟩ := shiftTo_eq power aIs pos small
      have same : x.gcd y = x'.gcd y := by rw [factors, gcd_two_pow_mul odd]
      have le : c.toNat ≤ a.toNat := by
        rw [cIs, aIs, factors]
        exact Nat.mul_le_mul_left _ (Nat.le_mul_of_pos_left _ (Nat.two_pow_pos _))
      have cancel {u v : Nat} (eq : 2 ^ k * u = 2 ^ k * v) : u = v := Nat.eq_of_mul_eq_mul_left unit eq
      rw [evenOddLoop, run, same]
      simp only [Option.bind_eq_bind, Option.bind_some]
      by_cases one : c = r
      · refine ⟨_, if_pos one, ?_⟩
        have first : x' = 1 := cancel (by rw [← cIs, one, power, Nat.mul_one])
        rw [power, first, Nat.gcd_one_left, Nat.mul_one]
      · rw [if_neg one]
        by_cases equal : c = b
        · refine ⟨_, if_pos equal, ?_⟩
          have both : x' = y := cancel (by rw [← cIs, equal, bIs])
          rw [cIs, both, Nat.gcd_self]
        · have apart : x' ≠ y := fun both => equal (BitVec.eq_of_toNat_eq (by rw [cIs, bIs, both]))
          have order {u v : Nat} (lt : u < v) : 2 ^ k * u < 2 ^ k * v := Nat.mul_lt_mul_of_pos_left lt unit
          rw [if_neg equal]
          by_cases less : c < b
          · have lt : x' < y := by
              by_contra ge
              have numbers := BitVec.lt_def.mp less
              rw [cIs, bIs] at numbers
              exact absurd (Nat.mul_le_mul_left (2 ^ k) (Nat.not_lt.mp ge)) (Nat.not_le.mpr numbers)
            obtain ⟨z, zIs, pos', below, kept⟩ := halved_step power bIs cIs odd odd' lt
            have shrunk := order below
            rw [← zIs, ← bIs] at shrunk
            have swapped : x'.gcd y = z.gcd x' := by rw [kept, Nat.gcd_comm]
            rw [swapped]
            simp only [if_pos less]
            exact ih zIs cIs pos' odd' (by omega)
          · have lt : y < x' := by
              refine Nat.lt_of_le_of_ne ?_ (Ne.symm apart)
              by_contra gt
              have numbers := order (Nat.not_le.mp gt)
              rw [← cIs, ← bIs] at numbers
              exact less (BitVec.lt_def.mpr numbers)
            obtain ⟨z, zIs, pos', below, kept⟩ := halved_step power cIs bIs odd' odd lt
            have shrunk := order below
            rw [← zIs, ← cIs] at shrunk
            rw [← kept]
            simp only [if_neg less]
            exact ih zIs bIs pos' odd (by omega)

/-! ## Both variants -/

/-- The powers of two of a number do not matter when the other one is odd, or when there are none. -/
theorem gcd_odd_part {x j m : Nat} (odd : x % 2 = 1 ∨ 2 ^ j * m % 2 = 1) : x.gcd (2 ^ j * m) = x.gcd m := by
  rcases odd with odd | odd
  · rw [Nat.gcd_comm, gcd_two_pow_mul odd, Nat.gcd_comm]
  · cases j with
    | zero => rw [Nat.pow_zero, Nat.one_mul]
    | succ j =>
        rw [Nat.pow_succ, Nat.mul_comm (2 ^ j), Nat.mul_assoc] at odd
        omega

/-- The odd part of a multiple of a power of two. -/
theorem odd_part {k y f m : Nat} (same : 2 ^ k * y = 2 ^ f * m) (odd : m % 2 = 1) : ∃ j, y = 2 ^ j * m := by
  have coprime : (2 ^ k).Coprime m := Nat.Coprime.pow_left k (Nat.coprime_two_left.mpr (Nat.odd_iff.mpr odd))
  have divides : 2 ^ k ∣ 2 ^ f := coprime.dvd_of_dvd_mul_right ⟨y, same.symm⟩
  have le : k ≤ f := (Nat.pow_dvd_pow_iff_le_right (by decide)).mp divides
  refine ⟨f - k, Nat.eq_of_mul_eq_mul_left (Nat.two_pow_pos k) ?_⟩
  rw [same, ← Nat.mul_assoc, ← Nat.pow_add, Nat.add_sub_cancel' le]

theorem isolate_common {a b : Word} (nonzero : a ≠ 0) : ((a ||| b) &&& -(a ||| b)).toNat = 2 ^ ffs (a ||| b) := by
  have some : a ||| b ≠ 0 := fun none => nonzero (BitVec.or_eq_zero_iff.mp none).1
  obtain ⟨m, eq⟩ := toNat_eq some
  exact isolate eq

/-- A number and zero. -/
theorem or_of_zero {a b : Word} (zero : a = 0 ∨ b = 0) : (a ||| b).toNat = a.toNat.gcd b.toNat := by
  rcases zero with rfl | rfl
  · simp
  · simp

theorem gcdFfs_eq (a b : Word) : (gcdFfs a b).map BitVec.toNat = some (a.toNat.gcd b.toNat) := by
  unfold gcdFfs
  by_cases zero : a = 0 ∨ b = 0
  · simp only [if_pos zero, Option.map_some, or_of_zero zero]
  · have nonzero : a ≠ 0 := fun none => zero (.inl none)
    obtain ⟨odd, bIs⟩ := shiftRight_ffs fun none : b = 0 => zero (.inr none)
    obtain ⟨x, y, aIs, bIs', either⟩ := @common_power a b nonzero
    have isolated := @isolate_common a b nonzero
    simp only [if_neg zero]
    generalize b >>> ffs b = c at odd bIs
    obtain ⟨j, factors⟩ := odd_part (bIs'.symm.trans bIs) odd
    have total : a.toNat.gcd b.toNat = 2 ^ ffs (a ||| b) * a.toNat.gcd c.toNat := by
      rw [factors] at either bIs'
      rw [aIs, bIs', Nat.gcd_mul_left, gcd_odd_part either, gcd_two_pow_mul odd]
    have fits : 2 ^ ffs (a ||| b) * a.toNat.gcd c.toNat < 2 ^ 64 := by
      rw [← total]
      have pos : 0 < a.toNat := Nat.pos_of_ne_zero fun none => nonzero (BitVec.eq_of_toNat_eq none)
      exact (Nat.gcd_le_left _ pos).trans_lt a.isLt
    by_cases one : c = 1
    · have unit : c.toNat = 1 := congrArg BitVec.toNat one
      rw [if_pos one, Option.map_some, isolated, total, unit, Nat.gcd_one_right, Nat.mul_one]
    · obtain ⟨d, run, value⟩ := ffsLoop_eq isolated nonzero odd le_rfl fits
      rw [if_neg one, run, Option.map_some, value, total]

theorem gcdEvenOdd_eq (a b : Word) : (gcdEvenOdd a b).map BitVec.toNat = some (a.toNat.gcd b.toNat) := by
  unfold gcdEvenOdd
  by_cases zero : a = 0 ∨ b = 0
  · simp only [if_pos zero, Option.map_some, or_of_zero zero]
  · have nonzero : a ≠ 0 := fun none => zero (.inl none)
    obtain ⟨x, y, aIs, bIs, either⟩ := @common_power a b nonzero
    have power := @isolate_common a b nonzero
    have unit := Nat.two_pow_pos (ffs (a ||| b))
    have pos {c : Word} {z : Nat} (some : c ≠ 0) (eq : c.toNat = 2 ^ ffs (a ||| b) * z) : 0 < z := by
      refine Nat.pos_of_ne_zero fun none => some (BitVec.eq_of_toNat_eq ?_)
      rw [eq, none]
      rfl
    have small : y < 2 ^ 64 := by
      refine lt_of_le_of_lt ?_ b.isLt
      rw [bIs]
      exact Nat.le_mul_of_pos_left _ unit
    obtain ⟨c, j, y', run, cIs, odd, factors⟩ := shiftTo_eq power bIs (pos (fun none => zero (.inr none)) bIs) small
    have total : a.toNat.gcd b.toNat = 2 ^ ffs (a ||| b) * x.gcd y' := by
      rw [factors] at either bIs
      rw [aIs, bIs, Nat.gcd_mul_left, gcd_odd_part either]
    simp only [if_neg zero, run, Option.bind_eq_bind, Option.bind_some]
    by_cases one : c = (a ||| b) &&& -(a ||| b)
    · have first : y' = 1 := Nat.eq_of_mul_eq_mul_left unit (by rw [← cIs, one, power, Nat.mul_one])
      rw [if_pos one, Option.map_some, power, total, first, Nat.gcd_one_right, Nat.mul_one]
    · obtain ⟨d, run', value⟩ := evenOddLoop_eq power aIs cIs (pos nonzero aIs) odd le_rfl
      rw [if_neg one, run', Option.map_some, value, total]

/-! ## Least common multiples -/

section

variable {gcd : Word → Word → Option Word} (known : ∀ a b, (gcd a b).map BitVec.toNat = some (a.toNat.gcd b.toNat))

include known

/-- The quotient comes first, so only the result has to fit. -/
theorem lcm_eq {a b : Word} (fits : a.toNat.lcm b.toNat < 2 ^ 64) : (lcm gcd a b).map BitVec.toNat = some (a.toNat.lcm b.toNat) := by
  unfold lcm
  split
  · obtain ⟨g, run, value⟩ := Option.map_eq_some_iff.mp (known a b)
    have product : a.toNat / g.toNat * b.toNat = a.toNat.lcm b.toNat := by
      rw [value, Nat.lcm_eq_mul_div, Nat.div_mul_right_comm (Nat.gcd_dvd_left _ _)]
    rw [run, Option.map_some, Option.map_some, BitVec.toNat_mul, BitVec.toNat_udiv, product, Nat.mod_eq_of_lt fits]
  · rename_i none
    have zero : a.toNat = 0 ∨ b.toNat = 0 := by
      by_contra both
      push Not at both
      exact none ⟨fun eq => both.1 (congrArg BitVec.toNat eq), fun eq => both.2 (congrArg BitVec.toNat eq)⟩
    rw [Option.map_some]
    rcases zero with eq | eq
    · rw [eq, Nat.lcm_zero_left]
      rfl
    · rw [eq, Nat.lcm_zero_right]
      rfl

/-- A zero is left out. -/
theorem lcmNotZero_eq {a b : Word} (fits : a.toNat.lcm b.toNat < 2 ^ 64) : (lcmNotZero gcd a b).map BitVec.toNat =
    some (if a = 0 then b.toNat else if b = 0 then a.toNat else a.toNat.lcm b.toNat) := by
  obtain ⟨l, run, value⟩ := Option.map_eq_some_iff.mp (lcm_eq known fits)
  have word {c : Word} : c.toNat = 0 ↔ c = 0 := ⟨fun none => BitVec.eq_of_toNat_eq none, fun zero => congrArg BitVec.toNat zero⟩
  have zero : l = 0 ↔ a = 0 ∨ b = 0 := by rw [← word, value, Nat.lcm_eq_zero_iff, word, word]
  unfold lcmNotZero
  rw [run]
  simp only [Option.bind_eq_bind, Option.bind_some]
  by_cases first : a = 0
  · have none : l = 0 := zero.mpr (.inl first)
    rw [if_neg (not_not.mpr none), Option.map_some, if_pos first, first]
    split
    · rfl
    · rename_i second
      rw [not_not.mp second]
  · rw [if_neg first]
    by_cases second : b = 0
    · have none : l = 0 := zero.mpr (.inr second)
      rw [if_neg (not_not.mpr none), Option.map_some, if_neg (not_not.mpr second), if_pos second]
    · have some : l ≠ 0 := fun none => (zero.mp none).elim first second
      rw [if_pos some, Option.map_some, value, if_neg second]

end

/-- Both variants return the greatest common divisor, and the least common multiple is right where it fits in a word. -/
theorem gcd_lcm (a b : Word) :
    (gcdFfs a b).map BitVec.toNat = some (a.toNat.gcd b.toNat) ∧ gcdEvenOdd a b = gcdFfs a b ∧
    gcdFfs a 0 = some a ∧ gcdEvenOdd a 0 = some a ∧
    (a.toNat.lcm b.toNat < 2 ^ 64 → ∀ gcd ∈ [gcdFfs, gcdEvenOdd],
      (lcm gcd a b).map BitVec.toNat = some (a.toNat.lcm b.toNat) ∧
      (lcmNotZero gcd a b).map BitVec.toNat =
        some (if a = 0 then b.toNat else if b = 0 then a.toNat else a.toNat.lcm b.toNat)) := by
  have zero {gcd : Word → Word → Option Word} (known : (gcd a 0).map BitVec.toNat = some (a.toNat.gcd (0 : Word).toNat)) : gcd a 0 = some a := by
    obtain ⟨d, run, value⟩ := Option.map_eq_some_iff.mp known
    rw [run]
    exact congrArg some (BitVec.eq_of_toNat_eq (value.trans (Nat.gcd_zero_right _)))
  refine ⟨gcdFfs_eq a b, ?_, zero (gcdFfs_eq a 0), zero (gcdEvenOdd_eq a 0), fun fits gcd member => ?_⟩
  · obtain ⟨d, run, value⟩ := Option.map_eq_some_iff.mp (gcdFfs_eq a b)
    obtain ⟨e, run', value'⟩ := Option.map_eq_some_iff.mp (gcdEvenOdd_eq a b)
    rw [run, run']
    exact congrArg some (BitVec.eq_of_toNat_eq (value'.trans value.symm))
  · have known : ∀ a b, (gcd a b).map BitVec.toNat = some (a.toNat.gcd b.toNat) := by
      simp only [List.mem_cons, List.not_mem_nil, or_false] at member
      rcases member with rfl | rfl
      · exact gcdFfs_eq
      · exact gcdEvenOdd_eq
    exact ⟨lcm_eq known fits, lcmNotZero_eq known fits⟩

theorem gcd_lcm_small : (lcm gcdEvenOdd 12 18).map BitVec.toNat = some 36 :=
  ((gcd_lcm 12 18).2.2.2.2 (by decide +kernel) gcdEvenOdd (by simp)).1

end Miracle.Arith
