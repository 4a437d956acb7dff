import Miracle.Bitmap.Words
import Miracle.Lib.CountLoop
import Miracle.Lib.SidewaysAdd

/-! # The weight of a bitmap

`__bitmap_weight` adds the weights of the words, and of the bits of the last word that count.  The
weight of a word is found by adding its digits in pairs.
-/

namespace Miracle.Bitmap

open CountLoop SidewaysAdd

/-- The first bits of an array. -/
def bits (ws : List Word) (nbits : Nat) : List Bool := (List.range nbits).map (bit ws)

/-- `__sw_hweight64`. -/
def hweight64 (w : Word) : Word :=
  let w := w - (w >>> 1 &&& 0x5555555555555555#64)
  let w := (w &&& 0x3333333333333333#64) + (w >>> 2 &&& 0x3333333333333333#64)
  let w := (w + w >>> 4) &&& 0x0f0f0f0f0f0f0f0f#64
  (w * 0x0101010101010101#64) >>> 56

/-- `__bitmap_weight`; the sum is an `int`. -/
def bitmapWeight (bitmap : List Word) (nbits : Nat) : Option Int := do
  let lim := nbits / 64
  let w ← countUp (fun k w => (bitmap[k]?).map fun x => s32 (w + (hweight64 x).toNat)) lim (0 : Int)
  if nbits % 64 ≠ 0 then (bitmap[lim]?).map fun x => s32 (w + (hweight64 (x &&& lastWordMask nbits)).toNat) else some w

/-! ## The weight of a word -/

theorem masks : (0x5555555555555555#64).toNat = pairMask 1 32 ∧ (0x3333333333333333#64).toNat = pairMask 2 16 ∧
    (0x0f0f0f0f0f0f0f0f#64).toNat = pairMask 4 8 ∧ (0x0101010101010101#64).toNat = 0x0101010101010101 := by
  decide

/-- Byte `i` of the product is the sum of the bytes up to `i`, and what is above the word is lost. -/
theorem topByte_eq {d0 d1 d2 d3 d4 d5 d6 d7 : Nat} (b0 : d0 ≤ 8) (b1 : d1 ≤ 8) (b2 : d2 ≤ 8) (b3 : d3 ≤ 8) (b4 : d4 ≤ 8) (b5 : d5 ≤ 8)
    (b6 : d6 ≤ 8) (b7 : d7 ≤ 8) : (d0 + 256 * (d1 + 256 * (d2 + 256 * (d3 + 256 * (d4 + 256 * (d5 + 256 * (d6 + 256 * d7))))))) *
      0x0101010101010101 % 2 ^ 64 / 2 ^ 56 = d0 + (d1 + (d2 + (d3 + (d4 + (d5 + (d6 + d7)))))) := by
  have split {low total lost : Nat} (below : low < 2 ^ 56) (byte : total < 2 ^ 8) : (low + 2 ^ 56 * total + 2 ^ 64 * lost) % 2 ^ 64 / 2 ^ 56 = total := by
    omega
  have low : d0 + 256 * (d0 + d1 + 256 * (d0 + d1 + d2 + 256 * (d0 + d1 + d2 + d3 + 256 * (d0 + d1 + d2 + d3 + d4 +
      256 * (d0 + d1 + d2 + d3 + d4 + d5 + 256 * (d0 + d1 + d2 + d3 + d4 + d5 + d6)))))) < 2 ^ 56 := by omega
  have product : (d0 + 256 * (d1 + 256 * (d2 + 256 * (d3 + 256 * (d4 + 256 * (d5 + 256 * (d6 + 256 * d7))))))) * 0x0101010101010101 =
      d0 + 256 * (d0 + d1 + 256 * (d0 + d1 + d2 + 256 * (d0 + d1 + d2 + d3 + 256 * (d0 + d1 + d2 + d3 + d4 +
        256 * (d0 + d1 + d2 + d3 + d4 + d5 + 256 * (d0 + d1 + d2 + d3 + d4 + d5 + d6)))))) +
      2 ^ 56 * (d0 + (d1 + (d2 + (d3 + (d4 + (d5 + (d6 + d7))))))) +
      2 ^ 64 * (d1 + d2 + d3 + d4 + d5 + d6 + d7 + 256 * (d2 + d3 + d4 + d5 + d6 + d7 + 256 * (d3 + d4 + d5 + d6 + d7 +
        256 * (d4 + d5 + d6 + d7 + 256 * (d5 + d6 + d7 + 256 * (d6 + d7 + 256 * d7)))))) := by ring
  rw [product, split low (by omega)]

/-- The multiplication gathers the bytes in the highest one. -/
theorem gather {y : Nat} (small : y < 2 ^ 64) (le : DigitsLe (2 ^ 8) 8 y) : y * 0x0101010101010101 % 2 ^ 64 / 2 ^ 56 = digitSum (2 ^ 8) 8 y := by
  have digit {x : Nat} (le : DigitsLe (2 ^ 8) 8 x) : ∃ d x', d ≤ 8 ∧ DigitsLe (2 ^ 8) 8 x' ∧ x = d + 256 * x' ∧ ∀ k, digitSum (2 ^ 8) (k + 1) x = d + digitSum (2 ^ 8) k x' :=
    ⟨x % 2 ^ 8, x / 2 ^ 8, le.digit, le.div, (Nat.mod_add_div x (2 ^ 8)).symm, fun _ => rfl⟩
  obtain ⟨d0, y1, b0, le1, is0, sum0⟩ := digit le
  obtain ⟨d1, y2, b1, le2, is1, sum1⟩ := digit le1
  obtain ⟨d2, y3, b2, le3, is2, sum2⟩ := digit le2
  obtain ⟨d3, y4, b3, le4, is3, sum3⟩ := digit le3
  obtain ⟨d4, y5, b4, le5, is4, sum4⟩ := digit le4
  obtain ⟨d5, y6, b5, le6, is5, sum5⟩ := digit le5
  obtain ⟨d6, y7, b6, le7, is6, sum6⟩ := digit le6
  obtain ⟨d7, y8, b7, -, is7, sum7⟩ := digit le7
  have none : y8 = 0 := by omega
  rw [sum0, sum1, sum2, sum3, sum4, sum5, sum6, sum7, is0, is1, is2, is3, is4, is5, is6, is7, none]
  exact topByte_eq b0 b1 b2 b3 b4 b5 b6 b7

theorem bits_le {x : Nat} : DigitsLe (2 ^ 1) 1 x := fun i => Nat.le_of_lt_succ (Nat.mod_lt _ (by decide))

/-- Below the number of digits, the pairs stay below the same bound. -/
theorem pairs_lt {s k x : Nat} (room : 0 < s) : pairs s k x < 2 ^ (2 * s * k) := by
  induction k generalizing x with
  | zero => simp [pairs, pairMask]
  | succ k ih =>
      have digit := pair_lt s x (x / 2 ^ s) room
      have above := Nat.mul_le_mul_left (2 ^ (2 * s)) (Nat.succ_le_of_lt (@ih (x / 2 ^ (2 * s))))
      rw [pairs_succ, Nat.mul_succ, Nat.pow_add, Nat.mul_comm (2 ^ (2 * s * k))]
      rw [Nat.mul_succ] at above
      omega

section Stages

variable {x m : Word}

theorem toNat_shift_and (x m : Word) (s : Nat) : (x >>> s &&& m).toNat = x.toNat / 2 ^ s &&& m.toNat := by
  rw [BitVec.toNat_and, BitVec.toNat_ushiftRight, Nat.shiftRight_eq_div_pow]

theorem stage_one (mask : m.toNat = pairMask 1 32) : (x - (x >>> 1 &&& m)).toNat = pairs 1 32 x.toNat := by
  have part : (x >>> 1 &&& m).toNat = x.toNat / 2 &&& pairMask 1 32 := by rw [toNat_shift_and, pow_one, mask]
  have less : x >>> 1 &&& m ≤ x := by
    rw [BitVec.le_def, part]
    exact Nat.and_le_left.trans (Nat.div_le_self _ _)
  rw [BitVec.toNat_sub_of_le less, part]
  exact subtract_pairs x.isLt

theorem stage_two (mask : m.toNat = pairMask 2 16) : ((x &&& m) + (x >>> 2 &&& m)).toNat = pairs 2 16 x.toNat := by
  have less : pairs 2 16 x.toNat < 2 ^ 64 := @pairs_lt 2 16 x.toNat Nat.two_pos
  rw [BitVec.toNat_add, BitVec.toNat_and, toNat_shift_and, mask]
  exact Nat.mod_eq_of_lt less

theorem stage_three (mask : m.toNat = pairMask 4 8) (le : DigitsLe (2 ^ 4) 4 x.toNat) : ((x + x >>> 4) &&& m).toNat = pairs 4 8 x.toNat := by
  have word : pairMask 4 8 % 2 ^ 64 = pairMask 4 8 := by
    rw [← mask]
    exact Nat.mod_eq_of_lt m.isLt
  have less : (x.toNat + x.toNat / 2 ^ 4) &&& pairMask 4 8 < 2 ^ 64 := Nat.and_le_right.trans_lt (mask ▸ m.isLt)
  rw [BitVec.toNat_and, BitVec.toNat_add, BitVec.toNat_ushiftRight, Nat.shiftRight_eq_div_pow, mask, ← word, ← Nat.and_mod_two_pow,
    Nat.mod_eq_of_lt less]
  exact add_pairs (by decide) le

theorem stage_four (unit : m.toNat = 0x0101010101010101) (le : DigitsLe (2 ^ 8) 8 x.toNat) :
    ((x * m) >>> 56).toNat = digitSum (2 ^ 8) 8 x.toNat := by
  rw [BitVec.toNat_ushiftRight, Nat.shiftRight_eq_div_pow, BitVec.toNat_mul, unit]
  exact gather x.isLt le

end Stages

/-- The weight of a word is the number of its bits. -/
theorem hweight64_eq (w : Word) : (hweight64 w).toNat = (List.range 64).countP w.getLsbD := by
  obtain ⟨mask1, mask2, mask4, unit⟩ := masks
  have one := @stage_one w _ mask1
  have two := @stage_two (w - (w >>> 1 &&& 0x5555555555555555#64)) _ mask2
  rw [one] at two
  have digits : DigitsLe (2 ^ 4) 4 (pairs 2 16 (pairs 1 32 w.toNat)) := digits_pairs Nat.two_pos (digits_pairs Nat.one_pos bits_le)
  have three := stage_three mask4 (two ▸ digits)
  rw [two] at three
  have bytes : DigitsLe (2 ^ 8) 8 (pairs 4 8 (pairs 2 16 (pairs 1 32 w.toNat))) := digits_pairs (by decide) digits
  have four := stage_four unit (three ▸ bytes)
  rw [three] at four
  have sums : digitSum (2 ^ 8) 8 (pairs 4 8 (pairs 2 16 (pairs 1 32 w.toNat))) = digitSum 2 64 w.toNat :=
    ((digitSum_pairs (by decide) 8 _).trans (digitSum_pairs Nat.two_pos 16 _)).trans (digitSum_pairs Nat.one_pos 32 _)
  exact four.trans (sums.trans (digitSum_bits 64 w.toNat))

/-! ## The weight of the bits that count -/

theorem bits_count (ws : List Word) (nbits : Nat) : (bits ws nbits).count true = (List.range nbits).countP (bit ws) := by
  rw [bits, List.count, List.countP_map]
  congr 1
  funext i
  exact beq_true _

/-- The bits of one more word. -/
theorem countP_word {ws : List Word} {k n : Nat} (le : n ≤ 64) :
    (List.range (64 * k + n)).countP (bit ws) = (List.range (64 * k)).countP (bit ws) + (List.range n).countP (ws.getD k 0).getLsbD := by
  rw [List.range_add, List.countP_append, List.countP_map]
  congr 1
  refine List.countP_congr fun i inside => ?_
  rw [List.mem_range] at inside
  rw [Function.comp_apply, bit_word ws k (by omega)]

theorem s32_add (a b : Int) : s32 (s32 a + b) = s32 (a + b) := Int.bmod_add_bmod ..

theorem countP_mask {w : Word} {n : Nat} (le : n ≤ 64) (mask : Word) (low : ∀ t < 64, mask.getLsbD t = decide (t < n)) :
    (List.range 64).countP (w &&& mask).getLsbD = (List.range n).countP w.getLsbD := by
  obtain ⟨rest, whole⟩ : ∃ rest, 64 = n + rest := ⟨64 - n, by omega⟩
  have split : List.range 64 = List.range n ++ (List.range rest).map (n + ·) := by rw [← List.range_add, ← whole]
  rw [split, List.countP_append, List.countP_map]
  have none : (List.range rest).countP ((w &&& mask).getLsbD ∘ (n + ·)) = 0 := by
    rw [List.countP_eq_zero]
    intro i inside
    rw [List.mem_range] at inside
    rw [Function.comp_apply, BitVec.getLsbD_and, low _ (by omega), decide_eq_false (by omega), Bool.and_false]
    exact Bool.false_ne_true
  rw [none, Nat.add_zero]
  refine List.countP_congr fun i inside => ?_
  rw [List.mem_range] at inside
  rw [BitVec.getLsbD_and, low _ (by omega), decide_eq_true inside, Bool.and_true]

/-- The weight is the number of set bits, as an `int`. -/
theorem bitmapWeight_eq {ws : List Word} {nbits : Nat} (small : nbits < 2 ^ 32) (room : nbits ≤ 64 * ws.length) :
    bitmapWeight ws nbits = some (s32 ((bits ws nbits).count true)) := by
  have start : (0 : Int) = s32 ((List.range (64 * 0)).countP (bit ws) : Nat) := Int.zero_bmod.symm
  have step (k : Nat) (w : Int) (less : k < nbits / 64) (sum : w = s32 ((List.range (64 * k)).countP (bit ws) : Nat)) :
      ∃ w', (ws[k]?).map (fun x => s32 (w + (hweight64 x).toNat)) = some w' ∧ w' = s32 ((List.range (64 * (k + 1))).countP (bit ws) : Nat) := by
    refine ⟨s32 (w + (hweight64 (ws.getD k 0)).toNat), by rw [entry (by omega), Option.map_some], ?_⟩
    rw [Nat.mul_succ, countP_word le_rfl, sum, s32_add, hweight64_eq, Nat.cast_add]
  obtain ⟨w, run, sum⟩ := countUp_rule _ start step
  rw [bits_count, bitmapWeight, run]
  simp only [Option.bind_eq_bind, Option.bind_some]
  have whole : nbits = 64 * (nbits / 64) + nbits % 64 := (Nat.div_add_mod nbits 64).symm
  split
  · rename_i part
    have mask := @countP_mask (ws.getD (nbits / 64) 0) (nbits % 64) (by omega) (lastWordMask nbits)
      fun t _ => getLsbD_lastWordMask (by omega) (by omega) small (Nat.mod_mod _ _).symm
    rw [entry (by omega), Option.map_some, hweight64_eq, mask, sum, s32_add]
    conv_rhs => rw [whole, countP_word (by omega), Nat.cast_add]
  · rename_i full
    have none : nbits % 64 = 0 := by omega
    rw [sum]
    conv_rhs => rw [whole, none, Nat.add_zero]

end Miracle.Bitmap
