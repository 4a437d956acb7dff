import Miracle.Lib.Word
import Miracle.Lib.Numeral

/-! # Decimal digits without division

The conversion to decimal of `vsprintf.c`.  A division by ten is a multiplication and a shift, with
a constant that is precise enough for the values it is used for.  The digits are written the least
significant one first.
-/

namespace Miracle.Vsprintf

open Numeral

def digitChar (d : Nat) : Char := Char.ofNat (d + '0'.toNat)

/-- What is stored of a computation with `unsigned` operands: the low byte. -/
def byteChar (x : Nat) : Char := Char.ofNat (x % 256)

/-- Subtraction of two `unsigned` values. -/
def u32Sub (a b : Nat) : Nat := u32 (2 ^ 32 + a - b)

/-- `(x * (uint64_t)0x1999999a) >> 32`. -/
def tenthWide (x : Nat) : Nat := u32 (u64 (x * 0x1999999a) / 2 ^ 32)

/-- `(x * factor) >> shift` in 32 bits. -/
def tenth (factor shift x : Nat) : Nat := u32 (x * factor) / 2 ^ shift

/-- `(x - 10 * y) + '0'`. -/
def lastDigit (x y : Nat) : Char := byteChar (u32 (u32Sub x (u32 (10 * y)) + '0'.toNat))

/-- `put_dec_full9`. -/
def putDecFull9 (q : Nat) : List Char :=
  let r := tenthWide q
  let c1 := lastDigit q r
  let q := tenthWide r
  let c2 := lastDigit r q
  let r := tenthWide q
  let c3 := lastDigit q r
  let q := tenthWide r
  let c4 := lastDigit r q
  let r := tenthWide q
  let c5 := lastDigit q r
  let q := tenth 0x199a 16 r
  let c6 := lastDigit r q
  let r := tenth 0xcd 11 q
  let c7 := lastDigit q r
  let q := tenth 0xcd 11 r
  let c8 := lastDigit r q
  let c9 := byteChar (u32 (q + '0'.toNat))
  [c1, c2, c3, c4, c5, c6, c7, c8, c9]

/-- The end of `put_dec_trunc8`, for at most four digits. -/
def putDecTrunc4 (r : Nat) : List Char :=
  let q := tenth 0x199a 16 r
  let c1 := lastDigit r q
  if q = 0 then [c1]
  else
    let r := tenth 0xcd 11 q
    let c2 := lastDigit q r
    if r = 0 then [c1, c2]
    else
      let q := tenth 0xcd 11 r
      let c3 := lastDigit r q
      if q = 0 then [c1, c2, c3] else [c1, c2, c3, byteChar (u32 (q + '0'.toNat))]

theorem tenthWide_lt {r : Nat} (pos : 0 < r) : tenthWide r < r := by
  have le : tenthWide r ≤ r * 0x1999999a / 2 ^ 32 :=
    (Nat.mod_le _ _).trans (Nat.div_le_div_right (Nat.mod_le _ _))
  omega

/-- `put_dec_trunc8`. -/
def putDecTrunc8 (r : Nat) : List Char :=
  if 10000 ≤ r then
    let q := u32 (r + '0'.toNat)
    byteChar (u32Sub q (u32 (10 * tenthWide r))) :: putDecTrunc8 (tenthWide r)
  else putDecTrunc4 r
termination_by r
decreasing_by exact tenthWide_lt (by omega)

/-- The groups of nine digits of `put_dec`, and what is left. -/
def putDecGroups (n : Nat) : List Char × Nat :=
  if 1000000000 ≤ n then
    let (digits, left) := putDecGroups (n / 1000000000)
    (putDecFull9 (n % 1000000000) ++ digits, left)
  else ([], n)
termination_by n
decreasing_by omega

def putDec (n : Nat) : List Char :=
  if 100000000 ≤ n then
    let (digits, left) := putDecGroups n
    if 100000000 ≤ left then digits ++ putDecFull9 left else digits ++ putDecTrunc8 left
  else putDecTrunc8 n

/-! ## Exactness -/

/-- The factor is a little more than the tenth part of the power; the excess stays below one unit. -/
theorem mul_shift_eq {factor power e x : Nat} (above : 10 * factor = power + e) (pos : 0 < power)
    (exact_ : x / 10 * e + 9 * factor < power) : x * factor / power = x / 10 := by
  have last : x % 10 ≤ 9 := by omega
  have split : x * factor = x / 10 * power + (x / 10 * e + x % 10 * factor) := by
    calc x * factor = (x / 10 * 10 + x % 10) * factor := by rw [Nat.div_add_mod']
      _ = x / 10 * (10 * factor) + x % 10 * factor := by rw [Nat.add_mul, Nat.mul_assoc]
      _ = x / 10 * power + (x / 10 * e + x % 10 * factor) := by rw [above, Nat.mul_add, Nat.add_assoc]
  have rest : x / 10 * e + x % 10 * factor < power :=
    (Nat.add_le_add_left (Nat.mul_le_mul_right factor last) _).trans_lt exact_
  rw [split, Nat.mul_comm, Nat.mul_add_div pos, Nat.div_eq_of_lt rest, Nat.add_zero]

theorem tenthWide_eq {x : Nat} (small : x < 1000000000) : tenthWide x = x / 10 := by
  have eq : x * 0x1999999a / 2 ^ 32 = x / 10 := @mul_shift_eq 0x1999999a (2 ^ 32) 4 x (by decide) (by decide) (by omega)
  rw [tenthWide, u64_of_lt (by omega), eq, u32_of_lt (by omega)]

theorem tenth_four {x : Nat} (small : x < 10000) : tenth 0x199a 16 x = x / 10 := by
  rw [tenth, u32_of_lt (by omega)]
  exact @mul_shift_eq 0x199a (2 ^ 16) 4 x (by decide) (by decide) (by omega)

theorem tenth_three {x : Nat} (small : x < 1000) : tenth 0xcd 11 x = x / 10 := by
  rw [tenth, u32_of_lt (by omega)]
  exact @mul_shift_eq 0xcd (2 ^ 11) 2 x (by decide) (by decide) (by omega)

theorem lastDigit_eq {x : Nat} (small : x < 1000000000) : lastDigit x (x / 10) = digitChar (x % 10) := by
  have code : u32 (u32Sub x (u32 (10 * (x / 10))) + '0'.toNat) % 256 = x % 10 + '0'.toNat := by
    simp only [u32Sub, u32, show '0'.toNat = 48 from rfl]
    omega
  rw [lastDigit, byteChar, code, digitChar]

theorem topDigit_eq {x : Nat} (small : x < 10) : byteChar (u32 (x + '0'.toNat)) = digitChar (x % 10) := by
  have code : u32 (x + '0'.toNat) % 256 = x % 10 + '0'.toNat := by
    simp only [u32, show '0'.toNat = 48 from rfl]
    omega
  rw [byteChar, code, digitChar]

theorem putDecFull9_eq {q : Nat} (small : q < 1000000000) : putDecFull9 q = (lowDigits 10 9 q).map digitChar := by
  have d1 := tenthWide_eq small
  have d2 := tenthWide_eq (by omega : q / 10 < 1000000000)
  have d3 := tenthWide_eq (by omega : q / 10 / 10 < 1000000000)
  have d4 := tenthWide_eq (by omega : q / 10 / 10 / 10 < 1000000000)
  have d5 := tenthWide_eq (by omega : q / 10 / 10 / 10 / 10 < 1000000000)
  have d6 := tenth_four (by omega : q / 10 / 10 / 10 / 10 / 10 < 10000)
  have d7 := tenth_three (by omega : q / 10 / 10 / 10 / 10 / 10 / 10 < 1000)
  have d8 := tenth_three (by omega : q / 10 / 10 / 10 / 10 / 10 / 10 / 10 < 1000)
  unfold putDecFull9
  simp only [d1, d2, d3, d4, d5, d6, d7, d8]
  rw [lastDigit_eq small, lastDigit_eq (by omega), lastDigit_eq (by omega), lastDigit_eq (by omega), lastDigit_eq (by omega),
    lastDigit_eq (by omega), lastDigit_eq (by omega), lastDigit_eq (by omega), topDigit_eq (by omega)]
  rfl

/-- The digits of a number, and one digit for zero. -/
def decimalDigits (n : Nat) : List Nat := if n = 0 then [0] else Nat.digits 10 n

theorem decimalDigits_step {n : Nat} (two : 10 ≤ n) : decimalDigits n = n % 10 :: decimalDigits (n / 10) := by
  rw [decimalDigits, decimalDigits, if_neg (by omega), if_neg (by omega), Nat.digits_def' (by decide) (by omega)]

theorem decimalDigits_one {n : Nat} (one : n < 10) : decimalDigits n = [n % 10] := by
  rw [decimalDigits, Nat.mod_eq_of_lt one]
  split
  · rename_i zero
    rw [zero]
  · rename_i some
    exact Nat.digits_of_lt 10 n some one

theorem putDecTrunc4_eq {r : Nat} (small : r < 10000) : putDecTrunc4 r = (decimalDigits r).map digitChar := by
  have d1 := tenth_four small
  have d2 := tenth_three (by omega : r / 10 < 1000)
  have d3 := tenth_three (by omega : r / 10 / 10 < 1000)
  unfold putDecTrunc4
  simp only [d1, d2, d3]
  rw [lastDigit_eq (by omega), lastDigit_eq (by omega), lastDigit_eq (by omega), topDigit_eq (by omega)]
  split
  · rw [decimalDigits_one (by omega)]
    rfl
  · rw [decimalDigits_step (by omega)]
    split
    · rw [decimalDigits_one (by omega)]
      rfl
    · rw [decimalDigits_step (by omega)]
      split
      · rw [decimalDigits_one (by omega)]
        rfl
      · rw [decimalDigits_step (by omega), decimalDigits_one (by omega)]
        rfl

theorem putDecTrunc8_eq {r : Nat} (small : r < 1000000000) : putDecTrunc8 r = (decimalDigits r).map digitChar := by
  induction r using Nat.strong_induction_on with
  | _ r ih =>
      rw [putDecTrunc8]
      split
      · have code : u32Sub (u32 (r + '0'.toNat)) (u32 (10 * (r / 10))) % 256 = r % 10 + '0'.toNat := by
          simp only [u32Sub, u32, show '0'.toNat = 48 from rfl]
          omega
        have digits : decimalDigits r = r % 10 :: decimalDigits (r / 10) := decimalDigits_step (by omega)
        rw [tenthWide_eq small, ih (r / 10) (by omega) (by omega), digits, List.map_cons]
        exact congrArg (· :: _) (congrArg Char.ofNat code)
      · exact putDecTrunc4_eq (by omega)

/-- The groups are the low digits, and what is left has the others. -/
theorem putDecGroups_eq (n : Nat) : ∃ ds left, putDecGroups n = (ds.map digitChar, left) ∧ left < 1000000000 ∧
    (0 < n → 0 < left ∧ Nat.digits 10 n = ds ++ Nat.digits 10 left) := by
  induction n using Nat.strong_induction_on with
  | _ n ih =>
      by_cases large : 1000000000 ≤ n
      · obtain ⟨ds, left, run, small, digits⟩ := ih (n / 1000000000) (by omega)
        obtain ⟨pos, rest⟩ := digits (by omega)
        have group : putDecFull9 (n % 1000000000) = (lowDigits 10 9 n).map digitChar := by
          rw [putDecFull9_eq (Nat.mod_lt _ (by decide))]
          exact congrArg _ (lowDigits_mod 9 n)
        refine ⟨lowDigits 10 9 n ++ ds, left, ?_, small, fun _ => ⟨pos, ?_⟩⟩
        · rw [putDecGroups, if_pos large]
          simp only [run, group, List.map_append]
        · have chunk : Nat.digits 10 n = lowDigits 10 9 n ++ Nat.digits 10 (n / 1000000000) :=
            digits_chunk (by decide) large
          rw [chunk, rest, List.append_assoc]
      · exact ⟨[], n, by rw [putDecGroups, if_neg large]; rfl, by omega, fun pos => ⟨pos, rfl⟩⟩

/-- The digits of the number, the least significant one first, without leading zeros. -/
theorem putDec_eq (n : Nat) : putDec n = (decimalDigits n).map digitChar := by
  unfold putDec
  split
  · rename_i large
    obtain ⟨ds, left, run, small, digits⟩ := putDecGroups_eq n
    obtain ⟨pos, split⟩ := digits (by omega)
    have whole : decimalDigits n = ds ++ Nat.digits 10 left := by rw [decimalDigits, if_neg (by omega), split]
    simp only [run]
    rw [whole, List.map_append]
    split
    · rename_i nine
      have exactly : Nat.digits 10 left = lowDigits 10 9 left := digits_lowDigits (by decide) nine small
      rw [putDecFull9_eq small, exactly]
    · rw [putDecTrunc8_eq (by omega), decimalDigits, if_neg (by omega)]
  · exact putDecTrunc8_eq (by omega)

end Miracle.Vsprintf
