import Miracle.Crc32.Table
import Mathlib.Data.List.GetD

/-! # Tables and single bits

What `crc32_body` computes is one advance of the register for each byte.  On a machine with the
other order of bytes it does the same to swapped words.
-/

namespace Miracle.Crc32

open ShiftRegister

/-! ## Words and their bytes -/

theorem getLsbD_bswap (x : U32) {i : Nat} (inside : i < 32) : (bswap x).getLsbD i = x.getLsbD (8 * (3 - i / 8) + i % 8) := by
  rw [bswap, BitVec.getLsbD_append, BitVec.getLsbD_append, BitVec.getLsbD_append]
  simp only [BitVec.getLsbD_extractLsb']
  by_cases a : i < 8
  · have place : 8 * (3 - i / 8) + i % 8 = 24 + i := by omega
    simp [a, place]
  · by_cases b : i < 16
    · have place : 8 * (3 - i / 8) + i % 8 = 16 + (i - 8) := by omega
      have low : i - 8 < 8 := by omega
      simp [a, place, low]
    · have not : ¬ i - 8 < 8 := by omega
      by_cases c : i < 24
      · have place : 8 * (3 - i / 8) + i % 8 = 8 + (i - 8 - 8) := by omega
        have low : i - 8 - 8 < 8 := by omega
        simp [a, place, low, not]
      · have place : 8 * (3 - i / 8) + i % 8 = i - 8 - 8 - 8 := by omega
        have low : i - 8 - 8 - 8 < 8 := by omega
        have not' : ¬ i - 8 - 8 < 8 := by omega
        simp [a, place, low, not, not']

theorem bswap_bswap (x : U32) : bswap (bswap x) = x := by
  apply BitVec.eq_of_getLsbD_eq
  intro i inside
  rw [getLsbD_bswap _ inside, getLsbD_bswap _ (by omega)]
  congr 1
  omega

theorem bswap_xor (x y : U32) : bswap (x ^^^ y) = bswap x ^^^ bswap y := by
  apply BitVec.eq_of_getLsbD_eq
  intro i inside
  rw [BitVec.getLsbD_xor, getLsbD_bswap _ inside, getLsbD_bswap _ inside, getLsbD_bswap _ inside, BitVec.getLsbD_xor]

theorem getLsbD_byteMask (i : Nat) : (0xff : U32).getLsbD i = decide (i < 8) := by
  have is : (0xff : U32) = BitVec.ofNat 32 (2 ^ 8 - 1) := rfl
  rw [is, BitVec.getLsbD_ofNat, Nat.testBit_two_pow_sub_one]
  rw [Bool.eq_iff_iff]
  simp only [Bool.and_eq_true, decide_eq_true_eq]
  omega

theorem bswap_shiftLeft (x : U32) : bswap (x <<< 8) = bswap x >>> 8 := by
  apply BitVec.eq_of_getLsbD_eq
  intro i inside
  rw [getLsbD_bswap _ inside, BitVec.getLsbD_shiftLeft, BitVec.getLsbD_ushiftRight]
  by_cases top : i < 24
  · have back : 8 * (3 - i / 8) + i % 8 - 8 = 8 * (3 - (8 + i) / 8) + (8 + i) % 8 := by omega
    have moved : ¬ 8 * (3 - i / 8) + i % 8 < 8 := by omega
    have below : 8 * (3 - i / 8) + i % 8 < 32 := by omega
    rw [getLsbD_bswap _ (by omega), back, decide_eq_true below, decide_eq_false moved]
    rfl
  · have moved : 8 * (3 - i / 8) + i % 8 < 8 := by omega
    rw [BitVec.getLsbD_of_ge (bswap x) _ (by omega), decide_eq_true moved]
    simp

/-- The bytes of a swapped word come in the other order. -/
theorem bswap_byte (x : U32) {k : Nat} (inside : k < 4) : (bswap x >>> (8 * k)) &&& (0xff : U32) = (x >>> (8 * (3 - k))) &&& (0xff : U32) := by
  apply BitVec.eq_of_getLsbD_eq
  intro i _
  rw [BitVec.getLsbD_and, BitVec.getLsbD_and, getLsbD_byteMask, BitVec.getLsbD_ushiftRight, BitVec.getLsbD_ushiftRight]
  by_cases low : i < 8
  · rw [getLsbD_bswap _ (by omega)]
    congr 2
    omega
  · rw [decide_eq_false low, Bool.and_false, Bool.and_false]

theorem getLsbD_readWord (b0 b1 b2 b3 : Byte) (i : Nat) :
    (readWord .little b0 b1 b2 b3).getLsbD i = ([b0, b1, b2, b3].getD (i / 8) 0).getLsbD (i % 8) := by
  rw [readWord, BitVec.getLsbD_append, BitVec.getLsbD_append, BitVec.getLsbD_append]
  by_cases a : i < 8
  · have word : i / 8 = 0 := by omega
    have place : i % 8 = i := by omega
    simp [a, word, place]
  · by_cases b : i < 16
    · have word : i / 8 = 1 := by omega
      have place : i % 8 = i - 8 := by omega
      have low : i - 8 < 8 := by omega
      simp [a, word, place, low]
    · have not : ¬ i - 8 < 8 := by omega
      by_cases c : i < 24
      · have word : i / 8 = 2 := by omega
        have place : i % 8 = i - 8 - 8 := by omega
        have low : i - 8 - 8 < 8 := by omega
        simp [a, word, place, low, not]
      · have not' : ¬ i - 8 - 8 < 8 := by omega
        by_cases d : i < 32
        · have word : i / 8 = 3 := by omega
          have place : i % 8 = i - 8 - 8 - 8 := by omega
          simp [a, word, place, not, not']
        · have none : [b0, b1, b2, b3].getD (i / 8) 0 = 0 := List.getD_eq_default _ _ (by simp; omega)
          have beyond : 8 ≤ i - 8 - 8 - 8 := by omega
          rw [none]
          simp [a, not, not', BitVec.getLsbD_of_ge b3 _ beyond]

theorem readWord_big (b0 b1 b2 b3 : Byte) : readWord .big b0 b1 b2 b3 = bswap (readWord .little b0 b1 b2 b3) := by
  apply BitVec.eq_of_getLsbD_eq
  intro i inside
  have word : (8 * (3 - i / 8) + i % 8) / 8 = 3 - i / 8 := by omega
  have place : (8 * (3 - i / 8) + i % 8) % 8 = i % 8 := by omega
  have reversed : [b3, b2, b1, b0].getD (i / 8) 0 = [b0, b1, b2, b3].getD (3 - i / 8) 0 := by
    have cases : i / 8 = 0 ∨ i / 8 = 1 ∨ i / 8 = 2 ∨ i / 8 = 3 := by omega
    rcases cases with is | is | is | is <;> rw [is] <;> rfl
  rw [getLsbD_bswap _ inside, getLsbD_readWord, word, place, ← reversed]
  exact getLsbD_readWord b3 b2 b1 b0 i

/-- The bytes of a word in memory. -/
theorem readWord_byte (b0 b1 b2 b3 : Byte) (k : Nat) :
    (readWord .little b0 b1 b2 b3 >>> (8 * k)) &&& (0xff : U32) = ([b0, b1, b2, b3].getD k 0).setWidth 32 := by
  apply BitVec.eq_of_getLsbD_eq
  intro i below
  rw [BitVec.getLsbD_and, BitVec.getLsbD_ushiftRight, getLsbD_readWord, BitVec.getLsbD_setWidth, getLsbD_byteMask, decide_eq_true below]
  by_cases low : i < 8
  · have word : (8 * k + i) / 8 = k := by omega
    have place : (8 * k + i) % 8 = i := by omega
    rw [word, place, decide_eq_true low, Bool.and_true, Bool.true_and]
  · rw [decide_eq_false low, Bool.and_false, Bool.true_and]
    exact (BitVec.getLsbD_of_ge _ _ (by omega)).symm

theorem byte_shift (x : Byte) : x.setWidth 32 >>> 8 = (0 : U32) := by
  apply BitVec.eq_of_getLsbD_eq
  intro i _
  rw [BitVec.getLsbD_ushiftRight, BitVec.getLsbD_setWidth, BitVec.getLsbD_of_ge x _ (by omega)]
  simp

/-! ## `crc32_body` -/

/-- A table for a register that a byte advances; `rows` of them are there. -/
structure Advance (tab : Table) (rows : Nat) where
  adv : U32 → U32
  xor : ∀ a b, adv (a ^^^ b) = adv a ^^^ adv b
  byte : ∀ r, adv r = adv (r &&& 0xff) ^^^ (r >>> 8)
  entry : ∀ j < rows, ∀ i < 256, tab j i = adv^[j + 1] (BitVec.ofNat 32 i)

namespace Advance

variable {tab : Table} {rows : Nat} (R : Advance tab rows)

/-- A byte of the buffer. -/
def feed (r : U32) (x : Byte) : U32 := R.adv (r ^^^ x.setWidth 32)

theorem iterate_xor (n : Nat) (a b : U32) : R.adv^[n] (a ^^^ b) = R.adv^[n] a ^^^ R.adv^[n] b := by
  induction n generalizing a b with
  | zero => rfl
  | succ n ih => rw [Function.iterate_succ_apply, Function.iterate_succ_apply, Function.iterate_succ_apply, R.xor, ih]

theorem iterate_zero_word (n : Nat) : R.adv^[n] 0 = 0 := by
  have self := R.iterate_xor n 0 0
  rwa [BitVec.xor_self, BitVec.xor_self] at self

theorem entry_byte {j : Nat} (row : j < rows) (q : U32) : tab j (q &&& 0xff).toNat = R.adv^[j + 1] (q &&& 0xff) := by
  rw [R.entry j row _ (and_byte_lt q), BitVec.ofNat_toNat, BitVec.setWidth_eq]

theorem doCrc_eq (some : 0 < rows) (crc : U32) (x : Byte) : doCrc .little (tab 0) crc x = R.feed crc x := by
  have moved : (crc ^^^ x.setWidth 32) >>> 8 = crc >>> 8 := by
    rw [BitVec.ushiftRight_xor_distrib, byte_shift]
    exact BitVec.xor_zero
  have looked := R.entry_byte some (crc ^^^ x.setWidth 32)
  rw [feed, R.byte, moved]
  exact congrArg (· ^^^ crc >>> 8) looked

/-- The lowest byte is looked up, the others move down. -/
theorem iterate_byte {n : Nat} (row : n < rows) (q : U32) : R.adv^[n + 1] q = tab n (q &&& 0xff).toNat ^^^ R.adv^[n] (q >>> 8) := by
  rw [R.entry_byte row, Function.iterate_succ_apply, R.byte, R.iterate_xor, ← Function.iterate_succ_apply]

theorem doCrcWord_eq {first : Nat} (some : first + 3 < rows) (q : U32) : doCrcWord .little tab first q = R.adv^[first + 4] q := by
  have gone : q >>> 8 >>> 8 >>> 8 >>> 8 = 0 := by
    rw [← BitVec.shiftRight_add, ← BitVec.shiftRight_add, ← BitVec.shiftRight_add]
    exact BitVec.ushiftRight_eq_zero (by decide)
  have second : q >>> 8 >>> 8 = q >>> 16 := (BitVec.shiftRight_add q 8 8).symm
  have third : q >>> 8 >>> 8 >>> 8 = q >>> 24 := by rw [← BitVec.shiftRight_add, ← BitVec.shiftRight_add]
  rw [R.iterate_byte some, R.iterate_byte (by omega), R.iterate_byte (by omega), R.iterate_byte (by omega), gone, R.iterate_zero_word, third, second]
  have flat (a b c d : U32) : a ^^^ b ^^^ c ^^^ d = a ^^^ (b ^^^ (c ^^^ (d ^^^ 0))) := by
    simp [BitVec.xor_assoc]
  exact flat _ _ _ _

/-- The lowest byte of a word is fed, the others wait. -/
theorem iterate_feed {w : U32} {x : Byte} (low : w &&& 0xff = x.setWidth 32) (n : Nat) (r : U32) :
    R.adv^[n + 1] (r ^^^ w) = R.adv^[n] (R.feed r x ^^^ (w >>> 8)) := by
  rw [Function.iterate_succ_apply, feed, R.xor, R.byte w, low, R.xor, BitVec.xor_assoc]

/-- Four bytes at once. -/
theorem feed_word (r : U32) (b0 b1 b2 b3 : Byte) :
    R.feed (R.feed (R.feed (R.feed r b0) b1) b2) b3 = R.adv^[4] (r ^^^ readWord .little b0 b1 b2 b3) := by
  have byte (k : Nat) := readWord_byte b0 b1 b2 b3 k
  generalize readWord .little b0 b1 b2 b3 = w at byte
  have gone : w >>> 8 >>> 8 >>> 8 >>> 8 = 0 := by
    rw [← BitVec.shiftRight_add, ← BitVec.shiftRight_add, ← BitVec.shiftRight_add]
    exact BitVec.ushiftRight_eq_zero (by decide)
  have byte2 : w >>> 8 >>> 8 &&& (0xff : U32) = b2.setWidth 32 := by
    rw [← BitVec.shiftRight_add]
    exact byte 2
  have byte3 : w >>> 8 >>> 8 >>> 8 &&& (0xff : U32) = b3.setWidth 32 := by
    rw [← BitVec.shiftRight_add, ← BitVec.shiftRight_add]
    exact byte 3
  have byte0 : w &&& (0xff : U32) = b0.setWidth 32 := by
    have zero : w >>> (8 * 0) = w := BitVec.ushiftRight_zero w
    rw [← zero]
    exact byte 0
  rw [R.iterate_feed byte0, R.iterate_feed (byte 1), R.iterate_feed byte2, R.iterate_feed byte3, gone]
  exact BitVec.xor_zero.symm

theorem alignIt_fold (some : 0 < rows) (addr : Nat) (crc : U32) (buf : List Byte) :
    (alignIt .little (tab 0) addr crc buf).2.foldl R.feed (alignIt .little (tab 0) addr crc buf).1 = buf.foldl R.feed crc := by
  induction buf generalizing addr crc with
  | nil => rfl
  | cons x buf ih =>
      rw [alignIt]
      split
      · rw [ih, R.doCrc_eq some, List.foldl_cons]
      · rfl

theorem sliceBy4_fold (some : 3 < rows) (crc : U32) (buf : List Byte) :
    (sliceBy4 .little tab crc buf).2.foldl R.feed (sliceBy4 .little tab crc buf).1 = buf.foldl R.feed crc := by
  fun_induction sliceBy4 .little tab crc buf with
  | case1 crc b0 b1 b2 b3 buf ih =>
      rw [ih, R.doCrcWord_eq some, ← R.feed_word]
      rfl
  | case2 => rfl

theorem sliceBy8_fold (some : 7 < rows) (crc : U32) (buf : List Byte) :
    (sliceBy8 .little tab crc buf).2.foldl R.feed (sliceBy8 .little tab crc buf).1 = buf.foldl R.feed crc := by
  fun_induction sliceBy8 .little tab crc buf with
  | case1 crc b0 b1 b2 b3 b4 b5 b6 b7 buf crc' ih =>
      have words : crc' ^^^ doCrcWord .little tab 0 (readWord .little b4 b5 b6 b7) =
          R.adv^[4] (R.adv^[4] (crc ^^^ readWord .little b0 b1 b2 b3) ^^^ readWord .little b4 b5 b6 b7) := by
        rw [R.iterate_xor, ← Function.iterate_add_apply]
        exact congrArg₂ (· ^^^ ·) (R.doCrcWord_eq some _) (R.doCrcWord_eq (by omega) _)
      rw [ih, words, ← R.feed_word, ← R.feed_word]
      rfl
  | case2 => rfl

/-- Every byte advances the register once. -/
theorem crc32Body_eq {bits : CrcBits} (all : (if bits = .thirtyTwo then 3 else 7) < rows) (crc : U32) (addr : Nat) (buf : List Byte) :
    crc32Body .little bits crc addr buf tab = buf.foldl R.feed crc := by
  have some : 0 < rows := by split at all <;> omega
  have feeds : doCrc .little (tab 0) = R.feed := by
    funext crc x
    exact R.doCrc_eq some crc x
  unfold crc32Body
  simp only [feeds]
  rw [← R.alignIt_fold some addr crc buf]
  generalize alignIt .little (tab 0) addr crc buf = aligned
  split at all
  · rename_i four
    simp only [if_pos four]
    exact R.sliceBy4_fold all aligned.1 aligned.2
  · rename_i eight
    simp only [if_neg eight]
    exact R.sliceBy8_fold all aligned.1 aligned.2

end Advance

/-! ## The other order of bytes -/

section

variable (tab : Table)

/-- A table of swapped words. -/
def swapped : Table := fun j i => bswap (tab j i)

theorem swapped_swapped : swapped (swapped tab) = tab := by
  funext j i
  exact bswap_bswap _

theorem doCrc_big (crc : U32) (x : Byte) : doCrc .big (tab 0) crc x = bswap (doCrc .little (swapped tab 0) (bswap crc) x) := by
  have byte : (crc >>> 24 ^^^ x.setWidth 32) &&& 255 = (bswap crc ^^^ x.setWidth 32) &&& 255 := by
    have same : bswap crc &&& (0xff : U32) = crc >>> 24 &&& (0xff : U32) := by
      have zero : bswap crc >>> (8 * 0) = bswap crc := BitVec.ushiftRight_zero _
      rw [← zero]
      exact bswap_byte crc (by decide)
    apply BitVec.eq_of_getLsbD_eq
    intro i _
    have bit := congrArg (·.getLsbD i) same
    simp only [BitVec.getLsbD_and] at bit
    rw [BitVec.getLsbD_and, BitVec.getLsbD_and, BitVec.getLsbD_xor, BitVec.getLsbD_xor, Bool.and_xor_distrib_right, Bool.and_xor_distrib_right]
    exact congrArg (· ^^ _) bit.symm
  rw [doCrc, doCrc, bswap_xor, ← bswap_shiftLeft, bswap_bswap, byte]
  exact congrArg (· ^^^ _) (bswap_bswap _).symm

theorem doCrcWord_big (first : Nat) (q : U32) : doCrcWord .big tab first q = bswap (doCrcWord .little (swapped tab) first (bswap q)) := by
  have byte0 : bswap q &&& (255 : U32) = q >>> 24 &&& (255 : U32) := by
    have zero : bswap q >>> (8 * 0) = bswap q := BitVec.ushiftRight_zero _
    rw [← zero]
    exact bswap_byte q (by decide)
  have byte3 : bswap q >>> 24 &&& (255 : U32) = q &&& (255 : U32) := by
    have zero : q >>> (8 * 0) = q := BitVec.ushiftRight_zero _
    have same := @bswap_byte q 3 (by decide)
    rw [Nat.sub_self, zero] at same
    exact same
  have byte1 : bswap q >>> 8 &&& (255 : U32) = q >>> 16 &&& (255 : U32) := @bswap_byte q 1 (by decide)
  have byte2 : bswap q >>> 16 &&& (255 : U32) = q >>> 8 &&& (255 : U32) := @bswap_byte q 2 (by decide)
  simp only [doCrcWord, swapped, bswap_xor, bswap_bswap, byte0, byte1, byte2, byte3]
  ac_rfl

/-- What a part of the loop leaves, with its word swapped. -/
def swapFirst (st : U32 × List Byte) : U32 × List Byte := (bswap st.1, st.2)

theorem alignIt_big (addr : Nat) (crc : U32) (buf : List Byte) :
    alignIt .big (tab 0) addr crc buf = swapFirst (alignIt .little (swapped tab 0) addr (bswap crc) buf) := by
  induction buf generalizing addr crc with
  | nil => exact Prod.ext (bswap_bswap crc).symm rfl
  | cons x buf ih =>
      rw [alignIt, alignIt]
      split
      · rw [ih, doCrc_big, bswap_bswap]
      · exact Prod.ext (bswap_bswap crc).symm rfl

theorem sliceBy4_big (crc : U32) (buf : List Byte) :
    sliceBy4 .big tab crc buf = swapFirst (sliceBy4 .little (swapped tab) (bswap crc) buf) := by
  fun_induction sliceBy4 .big tab crc buf with
  | case1 crc b0 b1 b2 b3 buf ih => rw [ih, sliceBy4, doCrcWord_big, bswap_bswap, bswap_xor, readWord_big, bswap_bswap]
  | case2 crc buf short =>
      rw [sliceBy4.eq_2 _ _ _ _ short]
      exact Prod.ext (bswap_bswap crc).symm rfl

theorem sliceBy8_big (crc : U32) (buf : List Byte) :
    sliceBy8 .big tab crc buf = swapFirst (sliceBy8 .little (swapped tab) (bswap crc) buf) := by
  fun_induction sliceBy8 .big tab crc buf with
  | case1 crc b0 b1 b2 b3 b4 b5 b6 b7 buf crc' ih =>
      have first : bswap crc' = doCrcWord .little (swapped tab) 4 (bswap crc ^^^ readWord .little b0 b1 b2 b3) := by
        change bswap (doCrcWord .big tab 4 (crc ^^^ readWord .big b0 b1 b2 b3)) = _
        rw [doCrcWord_big, bswap_bswap, bswap_xor, readWord_big, bswap_bswap]
      rw [ih, sliceBy8, doCrcWord_big, bswap_xor, first, bswap_bswap, readWord_big, bswap_bswap]
  | case2 crc buf short =>
      rw [sliceBy8.eq_2 _ _ _ _ short]
      exact Prod.ext (bswap_bswap crc).symm rfl

theorem crc32Body_big (bits : CrcBits) (crc : U32) (addr : Nat) (buf : List Byte) :
    crc32Body .big bits crc addr buf tab = bswap (crc32Body .little bits (bswap crc) addr buf (swapped tab)) := by
  have rest (buf : List Byte) (crc : U32) : buf.foldl (doCrc .big (tab 0)) (bswap crc) = bswap (buf.foldl (doCrc .little (swapped tab 0)) crc) := by
    induction buf generalizing crc with
    | nil => rfl
    | cons x buf ih => rw [List.foldl_cons, List.foldl_cons, doCrc_big, bswap_bswap, ih]
  unfold crc32Body
  simp only [alignIt_big, swapFirst]
  split
  · simp only [sliceBy4_big, swapFirst, bswap_bswap, rest]
  · simp only [sliceBy8_big, swapFirst, bswap_bswap, rest]

end

end Miracle.Crc32
