import Mathlib
import Miracle.Lib.LowBit

/-! # The first zero byte of a word

A word is read as eight bytes, the lowest one first.  Subtracting one from every byte at once sets
the high bit of the first byte that is zero.  The borrow that leaves it can set high bits above,
and never one below, so the lowest of these bits is the one that counts.
-/

namespace Miracle.ZeroByte

open LowBit

abbrev Word := BitVec 64

abbrev Byte := BitVec 8

/-- The word of eight bytes. -/
def ofBytes (f : Nat → Byte) : Word := BitVec.ofFnLE fun i : Fin 64 => (f (i / 8)).getLsbD (i % 8)

def byte (a : Word) (k : Nat) : Byte := (a >>> (8 * k)).setWidth 8

def oneBits : Word := 0x0101010101010101

def highBits : Word := 0x8080808080808080

/-- A bit for the first zero byte, and maybe more above it. -/
def zeroBits (a : Word) : Word := ((a - oneBits) &&& ~~~a) &&& highBits

variable {a : Word} {k : Nat}

theorem getLsbD_byte (a : Word) (k : Nat) {t : Nat} (inside : t < 8) : (byte a k).getLsbD t = a.getLsbD (8 * k + t) := by
  rw [byte, BitVec.getLsbD_setWidth, BitVec.getLsbD_ushiftRight, decide_eq_true inside, Bool.true_and]

theorem byte_ofBytes (f : Nat → Byte) (inside : k < 8) : byte (ofBytes f) k = f k := by
  refine BitVec.eq_of_getLsbD_eq fun t place => ?_
  have bit : 8 * k + t < 64 := by omega
  have which : (8 * k + t) / 8 = k := by omega
  have where_ : (8 * k + t) % 8 = t := by omega
  rw [getLsbD_byte _ _ place, ofBytes, BitVec.getLsbD_ofFnLE, dif_pos bit]
  simp only [which, where_]

theorem toNat_byte (a : Word) (k : Nat) : (byte a k).toNat = a.toNat / 2 ^ (8 * k) % 2 ^ 8 := by
  rw [byte, BitVec.toNat_setWidth, BitVec.toNat_ushiftRight, Nat.shiftRight_eq_div_pow]

/-! ## Subtraction in every byte -/

/-- The low bytes and the next one. -/
theorem low_succ (n k : Nat) : n % 2 ^ (8 * (k + 1)) = n % 2 ^ (8 * k) + 2 ^ (8 * k) * (n / 2 ^ (8 * k) % 2 ^ 8) := by
  have split : 2 ^ (8 * (k + 1)) = 2 ^ (8 * k) * 2 ^ 8 := by rw [← Nat.pow_add, Nat.mul_succ]
  rw [split, Nat.mod_mul]

theorem oneBits_byte (inside : k < 8) : oneBits.toNat / 2 ^ (8 * k) % 2 ^ 8 = 1 := by
  have all : ∀ k < 8, oneBits.toNat / 2 ^ (8 * k) % 2 ^ 8 = 1 := by decide
  exact all k inside

/-- Without a zero byte nothing is borrowed. -/
theorem oneBits_le (within : k ≤ 8) (full : ∀ j < k, byte a j ≠ 0) : oneBits.toNat % 2 ^ (8 * k) ≤ a.toNat % 2 ^ (8 * k) := by
  induction k with
  | zero => rw [Nat.mul_zero, Nat.pow_zero, Nat.mod_one, Nat.mod_one]
  | succ k ih =>
      have low := ih (by omega) fun j below => full j (by omega)
      have some : 1 ≤ a.toNat / 2 ^ (8 * k) % 2 ^ 8 := by
        rw [← toNat_byte]
        refine Nat.pos_of_ne_zero fun none => full k (Nat.lt_succ_self k) (BitVec.eq_of_toNat_eq ?_)
        rw [none]
        rfl
      rw [low_succ, low_succ, oneBits_byte (by omega)]
      exact Nat.add_le_add low (Nat.mul_le_mul_left _ some)

/-- A byte above others that are not zero is decremented. -/
theorem byte_sub (inside : k < 8) (full : ∀ j < k, byte a j ≠ 0) : byte (a - oneBits) k = byte a k - 1 := by
  have unit := Nat.two_pow_pos (8 * k)
  have whole : ((a - oneBits).toNat + oneBits.toNat) % 2 ^ 64 = a.toNat := by
    rw [← BitVec.toNat_add, BitVec.sub_add_cancel]
  have bits : 8 * k + (64 - 8 * k) = 64 := by omega
  have word : 2 ^ 64 = 2 ^ (8 * k) * 2 ^ (64 - 8 * k) := by rw [← Nat.pow_add, bits]
  refine BitVec.eq_of_toNat_eq ?_
  have one : (1 : Byte).toNat = 1 := rfl
  rw [BitVec.toNat_sub, toNat_byte, toNat_byte, one]
  generalize (a - oneBits).toNat = x at whole ⊢
  -- the parts below the byte are subtracted on their own
  have below : x % 2 ^ (8 * k) + oneBits.toNat % 2 ^ (8 * k) = a.toNat % 2 ^ (8 * k) := by
    have le := oneBits_le inside.le full
    have lt := Nat.mod_lt x unit
    have lt' := Nat.mod_lt a.toNat unit
    have low : (x % 2 ^ (8 * k) + oneBits.toNat % 2 ^ (8 * k)) % 2 ^ (8 * k) = a.toNat % 2 ^ (8 * k) := by
      rw [← Nat.add_mod, ← whole, Nat.mod_mod_of_dvd _ (Dvd.intro _ word.symm)]
    by_cases carry : x % 2 ^ (8 * k) + oneBits.toNat % 2 ^ (8 * k) < 2 ^ (8 * k)
    · rwa [Nat.mod_eq_of_lt carry] at low
    · rw [Nat.mod_eq_sub_mod (Nat.not_lt.mp carry), Nat.mod_eq_of_lt (by omega)] at low
      omega
  have above : a.toNat / 2 ^ (8 * k) % 2 ^ 8 = (x / 2 ^ (8 * k) % 2 ^ 8 + 1) % 2 ^ 8 := by
    have sum : x + oneBits.toNat = a.toNat % 2 ^ (8 * k) + 2 ^ (8 * k) * (x / 2 ^ (8 * k) + oneBits.toNat / 2 ^ (8 * k)) := by
      rw [← below, Nat.mul_add]
      have parts := Nat.mod_add_div x (2 ^ (8 * k))
      have parts' := Nat.mod_add_div oneBits.toNat (2 ^ (8 * k))
      omega
    have quotient : (x + oneBits.toNat) / 2 ^ (8 * k) = x / 2 ^ (8 * k) + oneBits.toNat / 2 ^ (8 * k) := by
      rw [sum, Nat.add_mul_div_left _ _ unit, Nat.div_eq_of_lt (Nat.mod_lt _ unit), Nat.zero_add]
    have divides : 2 ^ 8 ∣ 2 ^ (64 - 8 * k) := Nat.pow_dvd_pow 2 (by omega)
    have kept : a.toNat / 2 ^ (8 * k) % 2 ^ 8 = (x + oneBits.toNat) / 2 ^ (8 * k) % 2 ^ 8 := by
      rw [← whole, word, Nat.mod_mul_right_div_self, Nat.mod_mod_of_dvd _ divides]
    rw [kept, quotient, Nat.add_mod, oneBits_byte inside]
  have lt := Nat.mod_lt (x / 2 ^ (8 * k)) (Nat.two_pow_pos 8)
  have lt' := Nat.mod_lt (a.toNat / 2 ^ (8 * k)) (Nat.two_pow_pos 8)
  generalize x / 2 ^ (8 * k) % 2 ^ 8 = u at above lt ⊢
  generalize a.toNat / 2 ^ (8 * k) % 2 ^ 8 = v at above lt' ⊢
  omega

/-! ## The lowest bit -/

theorem getLsbD_zeroBits (a : Word) (k : Nat) {t : Nat} (inside : k < 8) (place : t < 8) :
    (zeroBits a).getLsbD (8 * k + t) = ((byte (a - oneBits) k).getLsbD t && !(byte a k).getLsbD t && decide (t = 7)) := by
  have high : ∀ k < 8, ∀ t < 8, highBits.getLsbD (8 * k + t) = decide (t = 7) := by decide
  have word : 8 * k + t < 64 := by omega
  rw [zeroBits, BitVec.getLsbD_and, BitVec.getLsbD_and, BitVec.getLsbD_not, high k inside t place, getLsbD_byte _ _ place, getLsbD_byte _ _ place,
    decide_eq_true word, Bool.true_and]

/-- No bit below the first zero byte. -/
theorem zeroBits_below (within : k ≤ 8) (full : ∀ j < k, byte a j ≠ 0) {i : Nat} (below : i < 8 * k) : (zeroBits a).getLsbD i = false := by
  have values : ∀ v : Byte, v ≠ 0 → ((v - 1).getLsbD 7 && !v.getLsbD 7) = false := by decide
  have place : i % 8 < 8 := Nat.mod_lt i (by decide)
  have split : i = 8 * (i / 8) + i % 8 := (Nat.div_add_mod i 8).symm
  have earlier : i / 8 < k := by omega
  have sub := @byte_sub a (i / 8) (by omega) fun j before => full j (by omega)
  rw [split, getLsbD_zeroBits a (i / 8) (by omega) place, sub]
  by_cases last : i % 8 = 7
  · rw [last, values _ (full _ earlier), Bool.false_and]
  · rw [decide_eq_false last, Bool.and_false]

theorem zeroBits_none (full : ∀ j < 8, byte a j ≠ 0) : zeroBits a = 0 := by
  refine BitVec.eq_of_getLsbD_eq fun i inside => ?_
  rw [zeroBits_below le_rfl full inside]
  simp

/-- The lowest bit is the high bit of the first zero byte. -/
theorem zeroBits_first (inside : k < 8) (full : ∀ j < k, byte a j ≠ 0) (zero : byte a k = 0) :
    ∃ m, (zeroBits a).toNat = 2 ^ (8 * k + 7) * (2 * m + 1) := by
  have value : ((0 - 1 : Byte).getLsbD 7 && !(0 : Byte).getLsbD 7 && decide (7 = 7)) = true := by decide
  refine toNat_of_bit ?_ fun i below => ?_
  · rw [getLsbD_zeroBits a k inside (by decide), byte_sub inside full, zero]
    exact value
  · by_cases before : i < 8 * k
    · exact zeroBits_below inside.le full before
    · have split : i = 8 * k + (i - 8 * k) := by omega
      rw [split, getLsbD_zeroBits a k inside (by omega), decide_eq_false (by omega : ¬ i - 8 * k = 7), Bool.and_false]

/-- The bits below the lowest one, without the high bit, are a mask for the bytes before the first zero byte. -/
theorem byteMask_eq (inside : k < 8) (full : ∀ j < k, byte a j ≠ 0) (zero : byte a k = 0) :
    (((zeroBits a - 1#64) &&& ~~~zeroBits a) >>> 7).toNat = 2 ^ (8 * k) - 1 := by
  obtain ⟨m, eq⟩ := zeroBits_first inside full zero
  have sevens : 2 ^ (8 * k + 7) = 2 ^ (8 * k) * 2 ^ 7 := Nat.pow_add 2 (8 * k) 7
  rw [BitVec.toNat_ushiftRight, below_mask eq, Nat.shiftRight_eq_div_pow, sevens]
  have pos := Nat.two_pow_pos (8 * k)
  omega

/-- The bytes that a mask keeps. -/
theorem byte_and_mask {mask : Word} (eq : mask.toNat = 2 ^ (8 * k) - 1) {j : Nat} :
    byte (a &&& mask) j = if j < k then byte a j else 0 := by
  refine BitVec.eq_of_getLsbD_eq fun t place => ?_
  have bit : mask.getLsbD (8 * j + t) = decide (8 * j + t < 8 * k) := by
    rw [BitVec.getLsbD, eq, Nat.testBit_two_pow_sub_one]
  rw [getLsbD_byte _ _ place, BitVec.getLsbD_and, bit]
  by_cases kept : j < k
  · rw [if_pos kept, decide_eq_true (by omega), Bool.and_true, getLsbD_byte _ _ place]
  · rw [if_neg kept, decide_eq_false (by omega), Bool.and_false]
    simp

end Miracle.ZeroByte
