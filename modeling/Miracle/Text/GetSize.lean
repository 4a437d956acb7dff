import Miracle.Lib.Scale
import Miracle.Text.HexLine
import Miracle.Vsprintf.RoundTrip

/-! # Sizes for people

`string_get_size` of `string_helpers.c`.  A loop comes with a number of rounds and has no result when
they run out; neither has an access beyond the end of a table.
-/

namespace Miracle.Text

open Strtox Vsprintf Scale

/-- `enum string_size_units`. -/
inductive Units where
  | ten
  | two
  deriving DecidableEq, Repr

namespace Units

def divisor : Units → Nat
  | ten => 1000
  | two => 1024

def unitsTwo : List String := ["B", "KiB", "MiB", "GiB", "TiB", "PiB", "EiB", "ZiB", "YiB"]

def unitsStr : Units → List String
  | ten => ["B", "kB", "MB", "GB", "TB", "PB", "EB", "ZB", "YB"]
  | two => unitsTwo

/-- The name of a unit; the tables end before the largest products. -/
def unit (units : Units) (i : Nat) : String := if unitsTwo.length ≤ i then "UNK" else units.unitsStr.getD i ""

end Units

def rounding : List Nat := [500, 50, 5]

/-- `while (x >> 32)`. -/
def reduce (d : Nat) : (rounds x i : Nat) → Option (Nat × Nat)
  | 0, _, _ => none
  | rounds + 1, x, i => if x >>> 32 ≠ 0 then reduce d rounds (x / d) (i + 1) else some (x, i)

/-- `while (size >= divisor)`: the size, the last remainder and the index. -/
def lower (d : Nat) : (rounds size remainder i : Nat) → Option (Nat × Nat × Nat)
  | 0, _, _, _ => none
  | rounds + 1, size, remainder, i => if d ≤ size then lower d rounds (size / d) (size % d) (i + 1) else some (size, remainder, i)

/-- `for (j = 0; sf_cap * 10 < 1000; j++)`. -/
def precision : (rounds sfCap j : Nat) → Option Nat
  | 0, _, _ => none
  | rounds + 1, sfCap, j => if u32 (sfCap * 10) < 1000 then precision rounds (u32 (sfCap * 10)) (j + 1) else some j

/-- The size and the remainder, rounded to `j` digits. -/
def roundUp (size remainder j : Nat) : Option (Nat × Nat) := do
  let half ← rounding[j]?
  let remainder := u32 (remainder + half)
  some (if 1000 ≤ remainder then (size + 1, remainder - 1000) else (size, remainder))

/-- The digits behind the point, in the eight characters of `tmp`. -/
def printTmp (tmp : Nat → Char) (remainder j : Nat) : Option (Nat → Char) :=
  if j ≠ 0 then do
    let o ← printf vaArgs (callees 0) (some 8) ⟨0, tmp⟩ ⟨".%03u".toList, by decide⟩ [.int (BitVec.ofNat 32 remainder)]
    if j + 1 < 8 then some (Function.update o.mem (j + 1) nul) else none
  else some tmp

def bytesOf (s : List Char) : List Byte := s.map fun c => Fin.ofNat 256 c.toNat

/-- The buffer and `tmp` after the call. -/
structure Printed where
  buf : Nat → Char
  tmp : Nat → Char

/-- The label `out`. -/
def printSize (units : Units) (size i : Nat) (tmp buf : Nat → Char) (len : Nat) : Option Printed := do
  let o ← printf vaArgs (callees 0) (some len) ⟨0, buf⟩ ⟨"%u%s %s".toList, by decide⟩
    [.int (BitVec.ofNat 32 size), .ptr (literal (bytesOf ((List.range 8).map tmp))), .ptr (literal (bytesOf (units.unit i).toList))]
  some ⟨o.mem, tmp⟩

/-- `string_get_size`. -/
def stringGetSize (rounds size blkSize : Nat) (units : Units) (buf : Nat → Char) (len : Nat) (tmp : Nat → Char) : Option Printed :=
  let tmp := Function.update tmp 0 nul
  let size := if blkSize = 0 then 0 else size
  if size = 0 then printSize units size 0 tmp buf len
  else do
    let (blkSize, i) ← reduce units.divisor rounds blkSize 0
    let (size, i) ← reduce units.divisor rounds size i
    let size := u64 (size * blkSize)
    let (size, remainder, i) ← lower units.divisor rounds size 0 i
    let j ← precision rounds (u32 size) 0
    let remainder := if units = .two then u32 (remainder * 1000) / 2 ^ 10 else remainder
    let (size, remainder) ← roundUp size remainder j
    let tmp ← printTmp tmp remainder j
    printSize units size i tmp buf len

/-! ## The number that is printed -/

/-- The product of the factors, each of them below `2 ^ 32`. -/
def reduced (d size blkSize : Nat) : Nat := scaled (2 ^ 32) d size * scaled (2 ^ 32) d blkSize

/-- The remainder of the last division. -/
def lastRemainder (d p : Nat) : Nat := if steps d d p = 0 then 0 else p / d ^ (steps d d p - 1) % d

/-- A product below the divisor in thousandths, as far as the last remainder tells. -/
def thousandths (d p : Nat) : Nat := 1000 * scaled d d p + lastRemainder d p * 1000 / d

/-- How many digits behind the point make three digits. -/
def decimals (n : Nat) : Nat := 3 - (decimalDigits n).length

/-- Half a unit of the last digit, in thousandths. -/
def half (j : Nat) : Nat := 10 ^ (3 - j) / 2

/-- Rounding changes the number of digits, or reaches the divisor. -/
def Carries (d t : Nat) : Prop := 9995 ≤ t ∧ t < 10000 ∨ 99950 ≤ t ∧ t < 100000 ∨ 1000 * d ≤ t + 500

/-! ## The loops -/

section

variable {d : Nat} (two : 1 < d)

include two

theorem reduce_eq {rounds x i : Nat} (enough : steps (2 ^ 32) d x < rounds) :
    reduce d rounds x i = some (scaled (2 ^ 32) d x, i + steps (2 ^ 32) d x) := by
  have pos : 0 < 2 ^ 32 := Nat.two_pow_pos 32
  induction rounds generalizing x i with
  | zero => exact absurd enough (Nat.not_lt_zero _)
  | succ rounds ih =>
      have high : x >>> 32 = x / 2 ^ 32 := Nat.shiftRight_eq_div_pow x 32
      rw [reduce, high]
      by_cases big : 2 ^ 32 ≤ x
      · have next := steps_of_le two pos big
        rw [if_pos (Nat.div_pos big pos).ne', ih (by omega), next, scaled_of_le two pos big, Nat.add_right_comm]
        rfl
      · have small := Nat.lt_of_not_le big
        rw [if_neg (not_not.mpr (Nat.div_eq_of_lt small)), scaled_of_lt two pos small, steps_of_lt two pos small]
        rfl

theorem lower_eq {rounds size remainder i : Nat} (enough : steps d d size < rounds) : lower d rounds size remainder i =
    some (scaled d d size, if steps d d size = 0 then remainder else lastRemainder d size, i + steps d d size) := by
  have pos : 0 < d := by omega
  induction rounds generalizing size remainder i with
  | zero => exact absurd enough (Nat.not_lt_zero _)
  | succ rounds ih =>
      rw [lower]
      by_cases big : d ≤ size
      · have next := steps_of_le two pos big
        have last : (if steps d d (size / d) = 0 then size % d else lastRemainder d (size / d)) = lastRemainder d size := by
          rw [lastRemainder, lastRemainder, next, if_neg (Nat.succ_ne_zero _), Nat.add_sub_cancel]
          by_cases done : steps d d (size / d) = 0
          · rw [if_pos done, done, Nat.pow_zero, Nat.div_one]
          · have power : d ^ steps d d (size / d) = d * d ^ (steps d d (size / d) - 1) := by
              rw [← Nat.pow_succ']
              congr 1
              omega
            rw [if_neg done, if_neg done, power, ← Nat.div_div_eq_div_mul]
        rw [if_pos big, ih (by omega), last, next, if_neg (Nat.succ_ne_zero _), scaled_of_le two pos big, Nat.add_right_comm]
        rfl
      · have small := Nat.lt_of_not_le big
        rw [if_neg big, scaled_of_lt two pos small, steps_of_lt two pos small, if_pos rfl]
        rfl

end

theorem decimals_eq (n : Nat) : decimals n = if n < 10 then 2 else if n < 100 then 1 else 0 := by
  rw [decimals]
  by_cases one : n < 10
  · rw [if_pos one, decimalDigits_one one]
    rfl
  · rw [if_neg one, decimalDigits_step (by omega), List.length_cons]
    by_cases two : n < 100
    · rw [if_pos two, decimalDigits_one (by omega)]
      rfl
    · rw [if_neg two, decimalDigits_step (by omega), List.length_cons]
      have some := List.length_pos_iff.mpr (decimalDigits_ne_nil (n / 10 / 10))
      omega

theorem precision_eq {rounds size : Nat} (enough : 3 ≤ rounds) (pos : 0 < size) (small : size < 2 ^ 28) :
    precision rounds size 0 = some (decimals size) := by
  obtain ⟨rounds, rfl⟩ : ∃ k, rounds = k + 3 := ⟨rounds - 3, by omega⟩
  have word {x : Nat} (less : x < 2 ^ 32) : u32 x = x := Nat.mod_eq_of_lt less
  have first : u32 (size * 10) = size * 10 := word (by omega)
  rw [precision, first, decimals_eq]
  by_cases more : size * 10 < 1000
  · have second : u32 (size * 10 * 10) = size * 10 * 10 := word (by omega)
    rw [if_pos more, precision, second]
    by_cases twice : size * 10 * 10 < 1000
    · have third : u32 (size * 10 * 10 * 10) = size * 10 * 10 * 10 := word (by omega)
      rw [if_pos twice, precision, third, if_neg (by omega), if_pos (by omega)]
    · rw [if_neg twice, if_neg (by omega), if_pos (by omega)]
  · rw [if_neg more, if_neg (by omega), if_neg (by omega)]

/-! ## The error -/

section

variable {d : Nat} (large : 1000 ≤ d)

include large

theorem lastRemainder_lt (p : Nat) : lastRemainder d p < d := by
  rw [lastRemainder]
  split
  · omega
  · exact Nat.mod_lt _ (by omega)

theorem thousandths_div (p : Nat) : thousandths d p / 1000 = scaled d d p ∧ thousandths d p % 1000 = lastRemainder d p * 1000 / d := by
  have less : lastRemainder d p * 1000 / d < 1000 := by
    rw [Nat.div_lt_iff_lt_mul (by omega), Nat.mul_comm]
    exact Nat.mul_lt_mul_of_pos_left (lastRemainder_lt large p) (by decide)
  rw [thousandths]
  generalize lastRemainder d p * 1000 / d = rest at less ⊢
  omega

/-- The remainders of all divisions but the last one are less than two thousandths. -/
theorem thousandths_bounds (p : Nat) : thousandths d p * d ^ steps d d p ≤ 1000 * p ∧ 1000 * p < (thousandths d p + 2) * d ^ steps d d p := by
  have pos : 0 < d := by omega
  by_cases none : steps d d p = 0
  · rw [thousandths, scaled, lastRemainder, if_pos none, none, Nat.pow_zero, Nat.zero_mul, Nat.zero_div]
    omega
  · obtain ⟨k, eq⟩ : ∃ k, steps d d p = k + 1 := Nat.exists_eq_add_one_of_ne_zero none
    have power : 0 < d ^ k := Nat.pow_pos pos
    have size : scaled d d p = p / d ^ k / d := by rw [scaled, eq, Nat.pow_succ, Nat.div_div_eq_div_mul]
    have remainder : lastRemainder d p = p / d ^ k % d := by rw [lastRemainder, if_neg none, eq, Nat.add_sub_cancel]
    have below : p / d ^ k * d ^ k ≤ p := Nat.div_mul_le_self _ _
    have above : p < (p / d ^ k + 1) * d ^ k := by
      rw [Nat.mul_comm]
      exact Nat.lt_mul_div_succ p power
    have parts := Nat.div_add_mod (p / d ^ k) d
    have rest := Nat.div_add_mod (p / d ^ k % d * 1000) d
    have less := Nat.mod_lt (p / d ^ k % d * 1000) pos
    have exact_ : thousandths d p * d + p / d ^ k % d * 1000 % d = 1000 * (p / d ^ k) := by
      calc thousandths d p * d + p / d ^ k % d * 1000 % d
          = 1000 * (d * (p / d ^ k / d)) + (d * (p / d ^ k % d * 1000 / d) + p / d ^ k % d * 1000 % d) := by
            rw [thousandths, size, remainder]
            ring
        _ = 1000 * (d * (p / d ^ k / d) + p / d ^ k % d) := by
            rw [rest]
            ring
        _ = 1000 * (p / d ^ k) := by rw [parts]
    rw [eq, Nat.pow_succ']
    constructor
    · calc thousandths d p * (d * d ^ k) = thousandths d p * d * d ^ k := by ring
        _ ≤ 1000 * (p / d ^ k) * d ^ k := Nat.mul_le_mul_right _ (by omega)
        _ = 1000 * (p / d ^ k * d ^ k) := by ring
        _ ≤ 1000 * p := Nat.mul_le_mul_left _ below
    · calc 1000 * p < 1000 * ((p / d ^ k + 1) * d ^ k) := Nat.mul_lt_mul_of_pos_left above (by decide)
        _ = (1000 * (p / d ^ k) + 1000) * d ^ k := by ring
        _ ≤ ((thousandths d p + 2) * d) * d ^ k := Nat.mul_le_mul_right _ (by
            rw [Nat.add_mul]
            omega)
        _ = (thousandths d p + 2) * (d * d ^ k) := by ring

/-- With the parts that the factors have lost, less than three thousandths are missing. -/
theorem product_bounds (small : d ≤ 1024) (size blkSize : Nat) :
    thousandths d (reduced d size blkSize) * d ^ (steps (2 ^ 32) d size + steps (2 ^ 32) d blkSize + steps d d (reduced d size blkSize)) ≤
      1000 * (size * blkSize) ∧
    1000 * (size * blkSize) <
      (thousandths d (reduced d size blkSize) + 3) * d ^ (steps (2 ^ 32) d size + steps (2 ^ 32) d blkSize + steps d d (reduced d size blkSize)) := by
  have lost := @scaled_mul_le (2 ^ 32) d size blkSize
  have kept := @le_scaled_mul (2 ^ 32) d size blkSize (by omega) (Nat.two_pow_pos 32)
  obtain ⟨low, high⟩ := thousandths_bounds large (reduced d size blkSize)
  obtain ⟨whole, rest⟩ := thousandths_div large (reduced d size blkSize)
  have less := @scaled_lt d d (reduced d size blkSize) (by omega) (by omega)
  have parts : 4194304 ≤ 2 ^ 32 / d := by
    rw [Nat.le_div_iff_mul_le (by omega)]
    omega
  have unit : 0 < d ^ (steps (2 ^ 32) d size + steps (2 ^ 32) d blkSize) := Nat.pow_pos (by omega)
  change reduced d size blkSize * _ ≤ _ at lost
  change _ ≤ reduced d size blkSize * _ * _ at kept
  rw [Nat.pow_add d (steps (2 ^ 32) d size + steps (2 ^ 32) d blkSize)]
  generalize d ^ (steps (2 ^ 32) d size + steps (2 ^ 32) d blkSize) = scale at *
  generalize d ^ steps d d (reduced d size blkSize) = last at *
  generalize reduced d size blkSize = p at *
  generalize thousandths d p = t at *
  generalize 2 ^ 32 / d = c at *
  constructor
  · calc t * (scale * last) = t * last * scale := by ring
      _ ≤ 1000 * p * scale := Nat.mul_le_mul_right _ low
      _ = 1000 * (p * scale) := by ring
      _ ≤ 1000 * (size * blkSize) := Nat.mul_le_mul_left _ lost
  · have small : t + 2 ≤ 1024001 := by omega
    have room : (t + 2) * (2 * c + 1) ≤ c * c :=
      calc (t + 2) * (2 * c + 1) ≤ 1024001 * (2 * c + 1) := Nat.mul_le_mul_right _ small
        _ ≤ 4194304 * c := by omega
        _ ≤ c * c := Nat.mul_le_mul_right _ parts
    have wide : (t + 2) * (c + 1) ^ 2 ≤ (t + 3) * c ^ 2 := by
      calc (t + 2) * (c + 1) ^ 2 = (t + 2) * c ^ 2 + (t + 2) * (2 * c + 1) := by ring
        _ ≤ (t + 2) * c ^ 2 + c * c := Nat.add_le_add_left room _
        _ = (t + 3) * c ^ 2 := by ring
    have square : 0 < (c + 1) ^ 2 := Nat.pow_pos (Nat.succ_pos c)
    refine Nat.lt_of_mul_lt_mul_right (a := c ^ 2) ?_
    calc 1000 * (size * blkSize) * c ^ 2 = 1000 * (size * blkSize * c ^ 2) := by ring
      _ ≤ 1000 * (p * scale * (c + 1) ^ 2) := Nat.mul_le_mul_left _ kept
      _ = 1000 * p * (scale * (c + 1) ^ 2) := by ring
      _ < (t + 2) * last * (scale * (c + 1) ^ 2) := Nat.mul_lt_mul_of_pos_right high (Nat.mul_pos unit square)
      _ = (t + 2) * (c + 1) ^ 2 * (scale * last) := by ring
      _ ≤ (t + 3) * c ^ 2 * (scale * last) := Nat.mul_le_mul_right _ wide
      _ = (t + 3) * (scale * last) * c ^ 2 := by ring

end

end Miracle.Text
