import Miracle.Bitmap.Fill
import Miracle.Bitmap.Find

/-! # The inline functions of `bitmap.h`

Where the compiler knows a number of bits, the inline functions work on one word, on one bit or on
whole bytes.  They agree with the functions they stand for.
-/

namespace Miracle.Bitmap

open CountLoop

namespace Inline

/-- `small_const_nbits`. -/
def smallConst (known : Bool) (nbits : Nat) : Prop := known = true ∧ nbits ≤ 64 ∧ nbits > 0

instance (known : Bool) (nbits : Nat) : Decidable (smallConst known nbits) := inferInstanceAs (Decidable (_ ∧ _ ∧ _))

/-- `*dst = (*src1 op *src2) & mask`. -/
def oneMasked (op : Word → Word → Word) (dst src1 src2 : List Word) (nbits : Nat) : Option (List Word × Bool) := do
  let w ← combine op src1 src2 0
  let dst ← store dst 0 (w &&& lastWordMask nbits)
  some (dst, (w &&& lastWordMask nbits) != 0)

def bitmapAnd (known : Bool) (dst src1 src2 : List Word) (nbits : Nat) : Option (List Word × Bool) :=
  if smallConst known nbits then oneMasked (fun x y => x &&& y) dst src1 src2 nbits else Bitmap.bitmapAnd dst src1 src2 nbits

def bitmapAndnot (known : Bool) (dst src1 src2 : List Word) (nbits : Nat) : Option (List Word × Bool) :=
  if smallConst known nbits then oneMasked (fun x y => x &&& ~~~ y) dst src1 src2 nbits else Bitmap.bitmapAndnot dst src1 src2 nbits

/-- `*dst = *src1 op *src2`. -/
def oneWhole (op : Word → Word → Word) (dst src1 src2 : List Word) : Option (List Word) := do store dst 0 (← combine op src1 src2 0)

def bitmapOr (known : Bool) (dst src1 src2 : List Word) (nbits : Nat) : Option (List Word) :=
  if smallConst known nbits then oneWhole (fun x y => x ||| y) dst src1 src2 else Bitmap.bitmapOr dst src1 src2 nbits

def bitmapXor (known : Bool) (dst src1 src2 : List Word) (nbits : Nat) : Option (List Word) :=
  if smallConst known nbits then oneWhole (fun x y => x ^^^ y) dst src1 src2 else Bitmap.bitmapXor dst src1 src2 nbits

def bitmapComplement (known : Bool) (dst src : List Word) (nbits : Nat) : Option (List Word) :=
  if smallConst known nbits then do store dst 0 (~~~ (← src[0]?)) else Bitmap.bitmapComplement dst src nbits

/-- `((*src1 op *src2) & mask) != 0`. -/
def oneAny (op : Word → Word → Word) (src1 src2 : List Word) (nbits : Nat) : Option Bool :=
  (combine op src1 src2 0).map fun w => (w &&& lastWordMask nbits) != 0

def bitmapIntersects (known : Bool) (src1 src2 : List Word) (nbits : Nat) : Option Bool :=
  if smallConst known nbits then oneAny (fun x y => x &&& y) src1 src2 nbits else Bitmap.bitmapIntersects src1 src2 nbits

def bitmapSubset (known : Bool) (src1 src2 : List Word) (nbits : Nat) : Option Bool :=
  if smallConst known nbits then (oneAny (fun x y => x &&& ~~~ y) src1 src2 nbits).map (!·) else Bitmap.bitmapSubset src1 src2 nbits

/-- `known` tells whether the compiler knows the number, `tail` whether it knows its lowest bits. -/
def bitmapEqual (known tail : Bool) (src1 src2 : List Word) (nbits : Nat) : Option Bool :=
  if smallConst known nbits then (oneAny (fun x y => x ^^^ y) src1 src2 nbits).map (!·)
  else if tail = true ∧ nbits &&& 7 = 0 then (memcmp src1 src2 (nbits / 8)).map (!·)
  else Bitmap.bitmapEqual src1 src2 nbits

def bitmapEmpty (known : Bool) (src : List Word) (nbits : Nat) : Option Bool :=
  if smallConst known nbits then (src[0]?).map fun w => !((w &&& lastWordMask nbits) != 0)
  else (findFirstBit src nbits).map (· == nbits)

def bitmapFull (known : Bool) (src : List Word) (nbits : Nat) : Option Bool :=
  if smallConst known nbits then (src[0]?).map fun w => !((~~~ w &&& lastWordMask nbits) != 0)
  else (findFirstZeroBit src nbits).map (· == nbits)

def bitmapWeight (known : Bool) (src : List Word) (nbits : Nat) : Option Int :=
  if smallConst known nbits then (src[0]?).map fun w => s32 (hweight64 (w &&& lastWordMask nbits)).toNat
  else Bitmap.bitmapWeight src nbits

/-- `__set_bit` and `__clear_bit`; the number of the bit is an `int`, which is negative beyond its range. -/
def changeBit (op : Word → Word → Word) (nr : Nat) (addr : List Word) : Option (List Word) :=
  if nr < 2 ^ 31 then do store addr (nr / 64) (op (← addr[nr / 64]?) (1#64 <<< (nr % 64))) else none

def setBit (nr : Nat) (addr : List Word) : Option (List Word) := changeBit (fun w mask => w ||| mask) nr addr

def clearBit (nr : Nat) (addr : List Word) : Option (List Word) := changeBit (fun w mask => w &&& ~~~ mask) nr addr

/-- `known` tells whether the compiler knows the number of bits, `tails` whether it knows the lowest bits of both numbers. -/
def bitmapSet (known tails : Bool) (map : List Word) (start nbits : Nat) : Option (List Word) :=
  if known = true ∧ nbits = 1 then setBit start map
  else if tails = true ∧ start &&& 7 = 0 ∧ nbits &&& 7 = 0 then memset map (start / 8) (nbits / 8) 0xff#8
  else Bitmap.bitmapSet map start nbits

def bitmapClear (known tails : Bool) (map : List Word) (start nbits : Nat) : Option (List Word) :=
  if known = true ∧ nbits = 1 then clearBit start map
  else if tails = true ∧ start &&& 7 = 0 ∧ nbits &&& 7 = 0 then memset map (start / 8) (nbits / 8) 0#8
  else Bitmap.bitmapClear map start nbits

def bitmapShiftRight (known : Bool) (src : Option (List Word)) (dst : List Word) (shift nbits : Nat) : Option (List Word) :=
  if smallConst known nbits then do
    let w : Word ← (operand src dst)[0]?
    store dst 0 ((w &&& lastWordMask nbits) >>> shift)
  else Bitmap.bitmapShiftRight src dst shift nbits

def bitmapShiftLeft (known : Bool) (src : Option (List Word)) (dst : List Word) (shift nbits : Nat) : Option (List Word) :=
  if smallConst known nbits then do
    let w : Word ← (operand src dst)[0]?
    store dst 0 (w <<< shift &&& lastWordMask nbits)
  else bitmapShiftLeftInto src dst shift nbits

end Inline

/-! ## One word -/

section One

variable {known : Bool} {nbits : Nat}

theorem oneWord_longs (small : Inline.smallConst known nbits) : bitsToLongs nbits = 1 := by
  obtain ⟨-, most, least⟩ := small
  unfold bitsToLongs
  omega

/-- All the bits of the word count, or the word is the last one. -/
theorem oneWord_cases (small : Inline.smallConst known nbits) : nbits = 64 ∧ lastWordMask nbits = BitVec.allOnes 64 ∨ nbits / 64 = 0 ∧ nbits % 64 ≠ 0 := by
  obtain ⟨-, most, least⟩ := small
  rcases Nat.eq_or_lt_of_le most with rfl | part
  · exact .inl ⟨rfl, by decide⟩
  · exact .inr ⟨by omega, by omega⟩

theorem and_ones (w : Word) : w &&& BitVec.allOnes 64 = w := BitVec.and_allOnes

theorem oneMasked_eq (op : Word → Word → Word) (dst src1 src2 : List Word) (small : Inline.smallConst known nbits) :
    Inline.oneMasked op dst src1 src2 nbits = maskedWords op dst src1 src2 nbits := by
  have zero (w : Word) : (0#64) ||| w = w := BitVec.zero_or
  rw [Inline.oneMasked, maskedWords]
  rcases oneWord_cases small with ⟨rfl, mask⟩ | ⟨first, part⟩
  · have one : 64 / 64 = 1 := rfl
    have none : ¬ 64 % 64 ≠ 0 := by decide
    rw [one, countUp_one, maskedRound, mask]
    simp only [if_neg none, and_ones]
    cases combine op src1 src2 0 with
    | none => rfl
    | some w =>
        cases stored : store dst 0 w with
        | none => simp only [Option.bind_eq_bind, Option.bind_some, stored, Option.bind_none]
        | some dst' =>
            simp only [Option.bind_eq_bind, Option.bind_some, stored]
            exact congrArg (fun v : Word => some (dst', v != 0)) (zero w).symm
  · simp only [first, countUp, Option.bind_eq_bind, Option.bind_some, if_pos part]
    refine congrArg (Option.bind (combine op src1 src2 0)) (funext fun w => ?_)
    refine congrArg (Option.bind (store dst 0 (w &&& lastWordMask nbits))) (funext fun dst' => ?_)
    exact congrArg (fun v : Word => some (dst', v != 0)) (zero _).symm

theorem oneWhole_eq (op : Word → Word → Word) (dst src1 src2 : List Word) (small : Inline.smallConst known nbits) :
    Inline.oneWhole op dst src1 src2 = wholeWords op dst src1 src2 nbits := by
  rw [Inline.oneWhole, wholeWords, oneWord_longs small, countUp_one]

theorem oneAny_eq {test : Word → Word → Bool} {op : Word → Word → Word} (test_op : ∀ x y, test x y = (op x y != 0)) (src1 src2 : List Word)
    (small : Inline.smallConst known nbits) : Inline.oneAny op src1 src2 nbits = anyWord test op src1 src2 nbits := by
  rw [Inline.oneAny, anyWord]
  rcases oneWord_cases small with ⟨rfl, mask⟩ | ⟨first, part⟩
  · have one : 64 / 64 = 1 := rfl
    have none : ¬ 64 % 64 ≠ 0 := by decide
    have same (b : Bool) : (if b = true then some true else some false) = some b := by cases b <;> rfl
    rw [one, search_one, mask, combine]
    simp only [if_neg none, and_ones, same, test_op]
    cases src1[0]? <;> cases src2[0]? <;> rfl
  · simp only [first, search, Option.bind_eq_bind, Option.bind_some, if_pos part, Bool.false_eq_true, if_false]

theorem oneWeight_eq (src : List Word) (small : Inline.smallConst known nbits) :
    ((src[0]?).map fun w => s32 (hweight64 (w &&& lastWordMask nbits)).toNat) = bitmapWeight src nbits := by
  rw [bitmapWeight]
  rcases oneWord_cases small with ⟨rfl, mask⟩ | ⟨first, part⟩
  · have one : 64 / 64 = 1 := rfl
    have none : ¬ 64 % 64 ≠ 0 := by decide
    rw [one, countUp_one, mask]
    simp only [if_neg none, and_ones, zero_add, Option.bind_eq_bind, Option.bind_fun_some]
  · simp only [first, countUp, Option.bind_eq_bind, Option.bind_some, if_pos part, zero_add]

theorem oneRight_eq (src : Option (List Word)) (dst : List Word) {shift : Nat} (less : shift < nbits) (small : Inline.smallConst known nbits) :
    (((operand src dst)[0]?).bind fun w => store dst 0 ((w &&& lastWordMask nbits) >>> shift)) = bitmapShiftRight src dst shift nbits := by
  have most := small.2.1
  have off : shift / 64 = 0 := by omega
  have rem : shift % 64 = shift := by omega
  have last (w : Word) : lastMasked 1 (lastWordMask nbits) 0 w = w &&& lastWordMask nbits := if_pos rfl
  have none (q : Nat) : upperBits shift 1 (lastWordMask nbits) q (operand src dst) = some 0 := if_pos (.inr (by omega))
  rw [bitmapShiftRight]
  simp only [oneWord_longs small, off, rem]
  rw [countUp_one, shiftRightRound]
  simp only [none, Option.bind_eq_bind, Option.bind_some, last, ne_eq, not_true_eq_false, if_false, Option.bind_fun_some]
  refine congrArg (Option.bind _) (funext fun w => ?_)
  exact congrArg (store dst 0) BitVec.or_zero.symm

end One

/-! ## Bits and bytes -/

/-- An operation with the mask of a bit changes this bit only. -/
theorem changeBit_eq {op : Word → Word → Word} {f : Bool → Bool → Bool} (bits : ∀ x y t, t < 64 → (op x y).getLsbD t = f (x.getLsbD t) (y.getLsbD t))
    (keep : ∀ a, f a false = a) {ws : List Word} {nr : Nat} (int : nr < 2 ^ 31) (inside : nr < 64 * ws.length) :
    ∃ ws', Inline.changeBit op nr ws = some ws' ∧ ws'.length = ws.length ∧ ∀ i, bit ws' i = f (bit ws i) (decide (nr ≤ i ∧ i < nr + 1)) := by
  obtain ⟨stored, entries⟩ := @store_eq ws (nr / 64) (by omega) (op (ws.getD (nr / 64) 0) (1#64 <<< (nr % 64)))
  refine ⟨_, by rw [Inline.changeBit, if_pos int, entry (by omega)]; exact stored, List.length_set, fun i => ?_⟩
  have place : i % 64 < 64 := Nat.mod_lt _ (by decide)
  rw [bit, entries]
  by_cases word : i / 64 = nr / 64
  · have same : (i % 64 = nr % 64) ↔ nr ≤ i ∧ i < nr + 1 := by omega
    rw [if_pos word, bits _ _ _ place, getLsbD_bitMask nr place, decide_eq_decide.mpr same, bit, word]
  · rw [if_neg word, decide_eq_false (by omega), keep, bit]

/-- Two ways to change the same bits of an array have the same result. -/
theorem same_change {ws : List Word} {f : Nat → Bool} {one other : Option (List Word)}
    (way : ∃ ws', one = some ws' ∧ ws'.length = ws.length ∧ ∀ i, bit ws' i = f i)
    (way' : ∃ ws', other = some ws' ∧ ws'.length = ws.length ∧ ∀ i, bit ws' i = f i) : one = other := by
  obtain ⟨vs, rfl, length, bits⟩ := way
  obtain ⟨vs', rfl, length', bits'⟩ := way'
  exact congrArg some (bits_ext (length.trans length'.symm) fun i => (bits i).trans (bits' i).symm)

theorem and_seven (n : Nat) : n &&& 7 = n % 8 := Nat.and_two_pow_sub_one_eq_mod n 3

section Ranges

variable {ws : List Word} {start nbits : Nat} (known tails : Bool)

theorem inlineSet_eq (int : start < 2 ^ 31) (int' : nbits < 2 ^ 31) (room : start + nbits ≤ 64 * ws.length) :
    Inline.bitmapSet known tails ws start nbits = bitmapSet ws start nbits := by
  have set := @bitmapSet_eq ws start nbits int' (by omega) room
  unfold Inline.bitmapSet
  split
  · rename_i one
    obtain ⟨-, rfl⟩ := one
    exact same_change (changeBit_eq (f := fun a b => a || b) (fun _ _ _ _ => BitVec.getLsbD_or) Bool.or_false int (by omega)) set
  · split
    · rename_i aligned
      rw [and_seven, and_seven] at aligned
      obtain ⟨ws', run, length, bits⟩ := @memset_eq ws (start / 8) (nbits / 8) 0xff#8 (by omega)
      refine same_change ⟨ws', run, length, fun i => ?_⟩ set
      have full : (0xff#8) = BitVec.allOnes 8 := by decide
      rw [bits, full, BitVec.getLsbD_allOnes, decide_eq_true (Nat.mod_lt _ (by decide))]
      by_cases inside : start ≤ i ∧ i < start + nbits
      · rw [if_pos (by omega), decide_eq_true inside, Bool.or_true]
      · rw [if_neg (by omega), decide_eq_false inside, Bool.or_false]
    · rfl

theorem inlineClear_eq (int : start < 2 ^ 31) (int' : nbits < 2 ^ 31) (room : start + nbits ≤ 64 * ws.length) :
    Inline.bitmapClear known tails ws start nbits = bitmapClear ws start nbits := by
  have clear := @bitmapClear_eq ws start nbits int' (by omega) room
  unfold Inline.bitmapClear
  split
  · rename_i one
    obtain ⟨-, rfl⟩ := one
    have bits (x y : Word) (t : Nat) (inside : t < 64) : (x &&& ~~~ y).getLsbD t = (x.getLsbD t && !y.getLsbD t) := by
      rw [BitVec.getLsbD_and, BitVec.getLsbD_not, decide_eq_true inside, Bool.true_and]
    exact same_change (changeBit_eq (f := fun a b => a && !b) bits Bool.and_true int (by omega)) clear
  · split
    · rename_i aligned
      rw [and_seven, and_seven] at aligned
      obtain ⟨ws', run, length, bits⟩ := @memset_eq ws (start / 8) (nbits / 8) 0#8 (by omega)
      refine same_change ⟨ws', run, length, fun i => ?_⟩ clear
      rw [bits, BitVec.getLsbD_zero]
      by_cases inside : start ≤ i ∧ i < start + nbits
      · rw [if_pos (by omega), decide_eq_true inside, Bool.not_true, Bool.and_false]
      · rw [if_neg (by omega), decide_eq_false inside, Bool.not_false, Bool.and_true]
    · rfl

end Ranges

/-! ## The other functions -/

section Others

variable {known : Bool} {nbits : Nat}

theorem inlineEqual_eq (tail : Bool) {ws vs : List Word} (small : nbits < 2 ^ 32) (room : nbits ≤ 64 * ws.length) (room' : nbits ≤ 64 * vs.length) :
    Inline.bitmapEqual known tail ws vs nbits = bitmapEqual ws vs nbits := by
  have test (x y : Word) : (x != y) = ((x ^^^ y) != 0) := by
    rw [Bool.eq_iff_iff, bne_iff_ne, bne_iff_ne]
    exact not_congr BitVec.xor_eq_zero_iff.symm
  unfold Inline.bitmapEqual
  split
  · rename_i const
    rw [oneAny_eq test ws vs const, bitmapEqual]
  · split
    · rename_i aligned
      rw [and_seven] at aligned
      have bytes : 8 * (nbits / 8) = nbits := by omega
      rw [memcmp_eq (by omega) (by omega), bitmapEqual_eq small room room', Option.map_some, ← decide_not, bytes]
      refine congrArg some (decide_eq_decide.mpr ?_)
      push Not
      rfl
    · rfl

/-- No bit that counts has the value `v`, as the search for one says. -/
theorem findNext_all {m : Nat → Bool} {v : Bool} : BitScan.findNext m v nbits 0 = nbits ↔ ∀ i < nbits, m i = !v := by
  obtain ⟨upper, -, found, before⟩ := BitScan.findNext_spec m v nbits 0
  constructor
  · intro none i less
    exact before i (Nat.zero_le i) (by omega)
  · intro all
    by_contra some
    have less : BitScan.findNext m v nbits 0 < nbits := by omega
    have one := found less
    rw [all _ less] at one
    cases v <;> exact absurd one (by decide)

theorem maskedZero_eq {w : Word} (small : nbits < 2 ^ 32) (const : Inline.smallConst known nbits) :
    (!((w &&& lastWordMask nbits) != 0)) = decide (∀ i < nbits, w.getLsbD i = false) := by
  obtain ⟨-, most, least⟩ := const
  rw [Bool.eq_iff_iff, Bool.not_eq_true', decide_eq_true_iff, Bool.eq_false_iff, ne_eq, word_ne_zero]
  push Not
  refine ⟨fun none i less => ?_, fun none t inside => ?_⟩
  · have here := none i (by omega)
    rw [BitVec.getLsbD_and, getLsbD_lastWordMask least most small rfl, decide_eq_true less, Bool.and_true] at here
    exact Bool.eq_false_of_not_eq_true here
  · rw [BitVec.getLsbD_and, getLsbD_lastWordMask least most small rfl]
    by_cases less : t < nbits
    · rw [none t less]
      exact Bool.false_ne_true
    · rw [decide_eq_false less, Bool.and_false]
      exact Bool.false_ne_true

theorem firstWord (ws : List Word) {i : Nat} (inside : i < 64) : (ws.getD 0 0).getLsbD i = bit ws i := by
  have here := bit_word ws 0 inside
  rwa [Nat.mul_zero, Nat.zero_add, eq_comm] at here

theorem inlineEmpty_eq {ws : List Word} (small : nbits < 2 ^ 32) (room : nbits ≤ 64 * ws.length) :
    Inline.bitmapEmpty known ws nbits = some (decide (∀ i < nbits, bit ws i = false)) := by
  unfold Inline.bitmapEmpty
  split
  · rename_i const
    have most := const.2.1
    have least := const.2.2
    rw [entry (by omega), Option.map_some, maskedZero_eq small const]
    exact congrArg some (decide_eq_decide.mpr (forall₂_congr fun i less => by rw [firstWord ws (by omega)]))
  · rw [findFirstBit_eq room, Option.map_some, BitScan.findNextBit]
    refine congrArg some (Bool.eq_iff_iff.mpr ?_)
    rw [beq_iff_eq, findNext_all, decide_eq_true_iff]
    rfl

theorem inlineFull_eq {ws : List Word} (small : nbits < 2 ^ 32) (room : nbits ≤ 64 * ws.length) :
    Inline.bitmapFull known ws nbits = some (decide (∀ i < nbits, bit ws i = true)) := by
  unfold Inline.bitmapFull
  split
  · rename_i const
    have most := const.2.1
    have least := const.2.2
    rw [entry (by omega), Option.map_some, maskedZero_eq small const]
    refine congrArg some (decide_eq_decide.mpr (forall₂_congr fun i less => ?_))
    rw [BitVec.getLsbD_not, decide_eq_true (by omega), Bool.true_and, firstWord ws (by omega), Bool.not_eq_false']
  · rw [findFirstZeroBit_eq room, Option.map_some, BitScan.findNextZeroBit]
    refine congrArg some (Bool.eq_iff_iff.mpr ?_)
    rw [beq_iff_eq, findNext_all, decide_eq_true_iff]
    rfl

/-- In one word the left shift drops what leaves the bits that count; it agrees on these. -/
theorem inlineLeft_eq {src : Option (List Word)} {dst : List Word} {shift : Nat} (small : nbits < 2 ^ 32) (less : shift < nbits)
    (room : bitsToLongs nbits ≤ dst.length) (room' : bitsToLongs nbits ≤ (operand src dst).length) :
    ∃ dst', Inline.bitmapShiftLeft known src dst shift nbits = some dst' ∧ dst'.length = dst.length ∧
      (∀ i < nbits, bit dst' i = (decide (shift ≤ i) && bit (operand src dst) (i - shift))) ∧ ∀ i, 64 * bitsToLongs nbits ≤ i → bit dst' i = bit dst i := by
  unfold Inline.bitmapShiftLeft
  split
  · rename_i const
    have longs := oneWord_longs const
    obtain ⟨-, most, least⟩ := const
    obtain ⟨stored, entries⟩ := @store_eq dst 0 (by omega) ((operand src dst).getD 0 0 <<< shift &&& lastWordMask nbits)
    refine ⟨_, by rw [entry (by omega)]; exact stored, List.length_set, fun i inside => ?_, fun i beyond => ?_⟩
    · have first : i / 64 = 0 := by omega
      have place : i % 64 = i := by omega
      rw [bit, entries, if_pos first, place, BitVec.getLsbD_and, getLsbD_lastWordMask least most small rfl, decide_eq_true inside, Bool.and_true,
        BitVec.getLsbD_shiftLeft, decide_eq_true (by omega : i < 64), firstWord _ (by omega : i - shift < 64), Bool.true_and]
      by_cases low : i < shift
      · rw [decide_eq_true low, decide_eq_false (by omega)]
        rfl
      · rw [decide_eq_false low, decide_eq_true (by omega)]
        rfl
    · rw [bit, entries, if_neg (by omega), bit]
  · obtain ⟨dst', run, length, bits⟩ := @bitmapShiftLeftInto_eq src dst shift nbits less room room'
    refine ⟨dst', run, length, fun i inside => ?_, fun i beyond => ?_⟩
    · rw [bits, if_pos (lt_bitsToLongs inside)]
    · rw [bits, if_neg (by omega)]

end Others

end Miracle.Bitmap
