import Miracle.Bitmap.Weight

/-! # Shifts of bitmaps

Both shifts combine two neighbouring words into one.  The right shift goes up and drops what is
above the last bit; the left shift goes down and keeps it.  The destination may be the source.
-/

namespace Miracle.Bitmap

open CountLoop

/-- The array that is read; it is the destination itself if there is no other one. -/
def operand (src : Option (List Word)) (dst : List Word) : List Word := src.getD dst

/-- Word `q`, without the bits above the last one. -/
def lastMasked (lim : Nat) (mask : Word) (q : Nat) (w : Word) : Word := if q = lim - 1 then w &&& mask else w

/-- The bits that come from the word above. -/
def upperBits (rem lim : Nat) (mask : Word) (q : Nat) (src : List Word) : Option Word :=
  if rem = 0 ∨ lim ≤ q + 1 then some 0 else (src[q + 1]?).map fun w => lastMasked lim mask (q + 1) w <<< (64 - rem)

/-- A round of `__bitmap_shift_right`. -/
def shiftRightRound (src : Option (List Word)) (off rem lim : Nat) (mask : Word) (k : Nat) (dst : List Word) : Option (List Word) := do
  let upper ← upperBits rem lim mask (off + k) (operand src dst)
  let lower ← (operand src dst)[off + k]?
  store dst k (lastMasked lim mask (off + k) lower >>> rem ||| upper)

/-- `memset(&dst[k], 0, n * sizeof(u64))`. -/
def clearFrom (k n : Nat) (dst : List Word) : Option (List Word) := (clearWords n (dst.drop k)).map (dst.take k ++ ·)

/-- `__bitmap_shift_right`. -/
def bitmapShiftRight (src : Option (List Word)) (dst : List Word) (shift nbits : Nat) : Option (List Word) := do
  let lim := bitsToLongs nbits
  let off := shift / 64
  let rem := shift % 64
  let dst ← countUp (shiftRightRound src off rem lim (lastWordMask nbits)) (lim - off) dst
  if off ≠ 0 then clearFrom (lim - off) off dst else some dst

/-- The loop of `__bitmap_shift_left`, downwards from word `k - 1`. -/
def shiftLeftRounds (src : Option (List Word)) (off rem : Nat) : Nat → List Word → Option (List Word)
  | 0, dst => some dst
  | k + 1, dst => do
      let lower ← lowerBits rem k (operand src dst)
      let w ← (operand src dst)[k]?
      let dst ← store dst (k + off) (lower ||| w <<< rem)
      shiftLeftRounds src off rem k dst

/-- `__bitmap_shift_left`. -/
def bitmapShiftLeftInto (src : Option (List Word)) (dst : List Word) (shift nbits : Nat) : Option (List Word) := do
  let lim := bitsToLongs nbits
  let off := shift / 64
  let rem := shift % 64
  let dst ← shiftLeftRounds src off rem (lim - off) dst
  if off ≠ 0 then clearWords off dst else some dst

/-- On one array this is the shift of the parsers. -/
theorem bitmapShiftLeft_eq (dst : List Word) (shift nbits : Nat) : bitmapShiftLeft dst shift nbits = bitmapShiftLeftInto none dst shift nbits := by
  have rounds (off rem k : Nat) (dst : List Word) : shiftLeftLoop off rem k dst = shiftLeftRounds none off rem k dst := by
    induction k generalizing dst with
    | zero => rfl
    | succ k ih =>
        rw [shiftLeftLoop, shiftLeftRounds]
        simp only [operand, Option.getD_none, ih]
  have clear (dst : List Word) (off : Nat) : clearWords off dst = if off ≠ 0 then clearWords off dst else some dst := by
    split
    · rfl
    · rename_i zero
      rw [not_not.mp zero, clearWords, if_pos (Nat.zero_le _)]
      rfl
  rw [bitmapShiftLeft, bitmapShiftLeftInto, rounds]
  simp only [← clear]

/-! ## Words and bits -/

theorem operand_entry {src : Option (List Word)} {dst dst' : List Word} {q : Nat} (same : dst'.getD q 0 = dst.getD q 0) :
    (operand src dst').getD q 0 = (operand src dst).getD q 0 := by
  cases src with
  | none => exact same
  | some src => rfl

theorem operand_length {src : Option (List Word)} {dst dst' : List Word} (same : dst'.length = dst.length) :
    (operand src dst').length = (operand src dst).length := by
  cases src with
  | none => exact same
  | some src => rfl

theorem getLsbD_lastMasked {nbits q : Nat} (w : Word) {s : Nat} (small : nbits < 2 ^ 32) (inside : q < bitsToLongs nbits) (place : s < 64) :
    (lastMasked (bitsToLongs nbits) (lastWordMask nbits) q w).getLsbD s = (decide (64 * q + s < nbits) && w.getLsbD s) := by
  rw [lastMasked]
  unfold bitsToLongs at inside ⊢
  by_cases last : q = (nbits + 63) / 64 - 1
  · have mask := @getLsbD_lastWordMask nbits (nbits - 64 * q) s (by omega) (by omega) small (by omega)
    rw [if_pos last, BitVec.getLsbD_and, mask, Bool.and_comm]
    congr 1
    exact decide_eq_decide.mpr (by omega)
  · rw [if_neg last, decide_eq_true (by omega), Bool.true_and]

/-- The words after a right shift. -/
def rightWord (op : List Word) (off rem lim : Nat) (mask : Word) (k : Nat) : Word :=
  lastMasked lim mask (off + k) (op.getD (off + k) 0) >>> rem |||
    if rem = 0 ∨ lim ≤ off + k + 1 then 0 else lastMasked lim mask (off + k + 1) (op.getD (off + k + 1) 0) <<< (64 - rem)

theorem getLsbD_rightWord {op : List Word} {shift nbits k t : Nat} (small : nbits < 2 ^ 32) (inside : shift / 64 + k < bitsToLongs nbits)
    (place : t < 64) : (rightWord op (shift / 64) (shift % 64) (bitsToLongs nbits) (lastWordMask nbits) k).getLsbD t =
      (decide (64 * k + t + shift < nbits) && bit op (64 * k + t + shift)) := by
  have low := fun w => @getLsbD_lastMasked nbits (shift / 64 + k) w (shift % 64 + t) small inside
  rw [rightWord, BitVec.getLsbD_or, BitVec.getLsbD_ushiftRight]
  by_cases same : shift % 64 + t < 64
  · have upper : (if shift % 64 = 0 ∨ bitsToLongs nbits ≤ shift / 64 + k + 1 then (0 : Word)
        else lastMasked (bitsToLongs nbits) (lastWordMask nbits) (shift / 64 + k + 1) (op.getD (shift / 64 + k + 1) 0) <<< (64 - shift % 64)).getLsbD t = false := by
      split
      · simp
      · rw [BitVec.getLsbD_shiftLeft, decide_eq_true (by omega : t < 64 - shift % 64)]
        simp
    have here : 64 * k + t + shift = 64 * (shift / 64 + k) + (shift % 64 + t) := by omega
    rw [upper, Bool.or_false, low _ same, ← bit_word op _ same, here]
  · have lower : (lastMasked (bitsToLongs nbits) (lastWordMask nbits) (shift / 64 + k) (op.getD (shift / 64 + k) 0)).getLsbD (shift % 64 + t) = false :=
      BitVec.getLsbD_of_ge _ _ (by omega)
    have here : 64 * k + t + shift = 64 * (shift / 64 + k + 1) + (t - (64 - shift % 64)) := by omega
    have less : t - (64 - shift % 64) < 64 := by omega
    rw [lower, Bool.false_or]
    split
    · rename_i out
      unfold bitsToLongs at out
      rw [decide_eq_false (by omega)]
      simp
    · rename_i more
      rw [BitVec.getLsbD_shiftLeft, decide_eq_true place, decide_eq_false (by omega : ¬ t < 64 - shift % 64),
        getLsbD_lastMasked _ small (by omega) less, ← bit_word op _ less, here]
      simp

/-- The words after a left shift. -/
def leftWord (op : List Word) (rem k : Nat) : Word :=
  (if rem ≠ 0 ∧ k > 0 then op.getD (k - 1) 0 >>> (64 - rem) else 0) ||| op.getD k 0 <<< rem

theorem getLsbD_leftWord {op : List Word} {rem k t : Nat} (part : rem < 64) (place : t < 64) :
    (leftWord op rem k).getLsbD t = (decide (rem ≤ 64 * k + t) && bit op (64 * k + t - rem)) := by
  rw [leftWord, BitVec.getLsbD_or, BitVec.getLsbD_shiftLeft, decide_eq_true place, Bool.true_and]
  by_cases low : t < rem
  · rw [decide_eq_true low]
    split
    · rename_i below
      have here : 64 * k + t - rem = 64 * (k - 1) + (64 - rem + t) := by omega
      rw [BitVec.getLsbD_ushiftRight, ← bit_word op _ (by omega), here, decide_eq_true (by omega)]
      simp
    · rw [decide_eq_false (by omega)]
      simp
  · have here : 64 * k + t - rem = 64 * k + (t - rem) := by omega
    have below : (if rem ≠ 0 ∧ k > 0 then op.getD (k - 1) 0 >>> (64 - rem) else (0 : Word)).getLsbD t = false := by
      split
      · rw [BitVec.getLsbD_ushiftRight]
        exact BitVec.getLsbD_of_ge _ _ (by omega)
      · simp
    rw [below, Bool.false_or, decide_eq_false low, ← bit_word op _ (by omega), here, decide_eq_true (by omega)]
    rfl

/-! ## The bits of the destination -/

/-- The words up to `k` have the bits of the shifted source. -/
theorem shiftRight_words {src : Option (List Word)} {dst : List Word} {shift nbits : Nat} (room : bitsToLongs nbits ≤ dst.length)
    (room' : bitsToLongs nbits ≤ (operand src dst).length) :
    ∃ dst', countUp (shiftRightRound src (shift / 64) (shift % 64) (bitsToLongs nbits) (lastWordMask nbits)) (bitsToLongs nbits - shift / 64) dst = some dst' ∧
      dst'.length = dst.length ∧ ∀ j, dst'.getD j 0 = if j < bitsToLongs nbits - shift / 64 then
        rightWord (operand src dst) (shift / 64) (shift % 64) (bitsToLongs nbits) (lastWordMask nbits) j else dst.getD j 0 := by
  refine countUp_rule (fun k (dst' : List Word) => dst'.length = dst.length ∧ ∀ j, dst'.getD j 0 = if j < k then
    rightWord (operand src dst) (shift / 64) (shift % 64) (bitsToLongs nbits) (lastWordMask nbits) j else dst.getD j 0)
    ⟨rfl, fun j => (if_neg (Nat.not_lt_zero j)).symm⟩ ?_
  rintro k dst' less ⟨length, words⟩
  -- the words that are read have not been written yet
  have unread {q : Nat} (above : k ≤ q) : (operand src dst').getD q 0 = (operand src dst).getD q 0 := by
    refine operand_entry ?_
    rw [words, if_neg (by omega)]
  have count := @operand_length src _ _ length
  have upper : upperBits (shift % 64) (bitsToLongs nbits) (lastWordMask nbits) (shift / 64 + k) (operand src dst') =
      some (if shift % 64 = 0 ∨ bitsToLongs nbits ≤ shift / 64 + k + 1 then 0
        else lastMasked (bitsToLongs nbits) (lastWordMask nbits) (shift / 64 + k + 1) ((operand src dst).getD (shift / 64 + k + 1) 0) <<< (64 - shift % 64)) := by
    rw [upperBits]
    split
    · rfl
    · rename_i more
      rw [entry (by omega), Option.map_some, unread (by omega)]
  obtain ⟨stored, entries⟩ := @store_eq dst' k (by omega)
    (rightWord (operand src dst) (shift / 64) (shift % 64) (bitsToLongs nbits) (lastWordMask nbits) k)
  refine ⟨dst'.set k (rightWord (operand src dst) (shift / 64) (shift % 64) (bitsToLongs nbits) (lastWordMask nbits) k), ?_,
    List.length_set.trans length, fun j => ?_⟩
  · rw [shiftRightRound, upper, entry (by omega : shift / 64 + k < (operand src dst').length), unread (by omega)]
    exact stored
  · rw [entries, words]
    by_cases here : j = k
    · rw [if_pos here, if_pos (by omega), here]
    · rw [if_neg here]
      by_cases early : j < k
      · rw [if_pos early, if_pos (by omega)]
      · rw [if_neg early, if_neg (by omega)]

theorem clearFrom_eq {ws : List Word} {k n : Nat} (room : k + n ≤ ws.length) :
    ∃ ws', clearFrom k n ws = some ws' ∧ ws'.length = ws.length ∧ ∀ j, ws'.getD j 0 = if k ≤ j ∧ j < k + n then 0 else ws.getD j 0 := by
  have count : (ws.take k).length = k := List.length_take_of_le (by omega)
  refine ⟨ws.take k ++ (List.replicate n 0 ++ (ws.drop k).drop n), ?_, ?_, fun j => ?_⟩
  · rw [clearFrom, clearWords, if_pos (by rw [List.length_drop]; omega)]
    rfl
  · rw [List.length_append, List.length_append, List.length_replicate, List.length_drop, List.length_drop, count]
    omega
  · simp only [List.getD_eq_getElem?_getD, List.getElem?_append, count, List.length_replicate, List.drop_drop, List.getElem?_drop]
    by_cases low : j < k
    · rw [if_pos low, if_neg (by omega), List.getElem?_take_of_lt low]
    · rw [if_neg low]
      by_cases inside : j - k < n
      · rw [if_pos inside, if_pos (by omega), List.getElem?_replicate_of_lt inside]
        rfl
      · have place : k + n + (j - k - n) = j := by omega
        rw [if_neg inside, if_neg (by omega), place]

/-- The right shift drops the bits below `shift` and has no bit from the garbage. -/
theorem bitmapShiftRight_eq {src : Option (List Word)} {dst : List Word} {shift nbits : Nat} (small : nbits < 2 ^ 32) (less : shift < nbits)
    (room : bitsToLongs nbits ≤ dst.length) (room' : bitsToLongs nbits ≤ (operand src dst).length) :
    ∃ dst', bitmapShiftRight src dst shift nbits = some dst' ∧ dst'.length = dst.length ∧ ∀ i, bit dst' i =
      if i < 64 * bitsToLongs nbits then decide (i + shift < nbits) && bit (operand src dst) (i + shift) else bit dst i := by
  obtain ⟨dst', run, length, words⟩ := @shiftRight_words src dst shift nbits room room'
  have within : shift / 64 < bitsToLongs nbits := by
    unfold bitsToLongs
    omega
  obtain ⟨dst'', cleared, length', words'⟩ := @clearFrom_eq dst' (bitsToLongs nbits - shift / 64) (shift / 64) (by omega)
  have ended : (if shift / 64 ≠ 0 then clearFrom (bitsToLongs nbits - shift / 64) (shift / 64) dst' else some dst') = some dst'' := by
    split
    · exact cleared
    · rename_i none
      rw [← cleared, not_not.mp none, clearFrom, clearWords, if_pos (Nat.zero_le _), Option.map_some, List.replicate_zero, List.nil_append,
        List.drop_zero, List.take_append_drop]
  refine ⟨dst'', ?_, length'.trans length, fun i => ?_⟩
  · rw [bitmapShiftRight, run]
    exact ended
  · have place : i % 64 < 64 := Nat.mod_lt _ (by decide)
    rw [bit, words', words]
    by_cases moved : i / 64 < bitsToLongs nbits - shift / 64
    · have whole : 64 * (i / 64) + i % 64 = i := Nat.div_add_mod i 64
      rw [if_neg (by omega), if_pos moved, if_pos (by omega), getLsbD_rightWord small (by omega) place, whole]
    · by_cases inside : i < 64 * bitsToLongs nbits
      · have beyond : ¬ i + shift < nbits := by
          unfold bitsToLongs at moved
          omega
        rw [if_pos (by omega), if_pos inside, decide_eq_false beyond]
        simp
      · rw [if_neg (by omega), if_neg moved, if_neg inside, bit]

theorem shiftLeft_words {src : Option (List Word)} {dst op : List Word} {off rem k : Nat} (room : k + off ≤ dst.length) (room' : k ≤ (operand src dst).length)
    (unread : ∀ q < k, (operand src dst).getD q 0 = op.getD q 0) :
    ∃ dst', shiftLeftRounds src off rem k dst = some dst' ∧ dst'.length = dst.length ∧
      ∀ j, dst'.getD j 0 = if off ≤ j ∧ j < k + off then leftWord op rem (j - off) else dst.getD j 0 := by
  induction k generalizing dst with
  | zero => exact ⟨dst, rfl, rfl, fun j => (if_neg (by omega)).symm⟩
  | succ k ih =>
      obtain ⟨stored, entries⟩ := @store_eq dst (k + off) (by omega) (leftWord op rem k)
      have length : (dst.set (k + off) (leftWord op rem k)).length = dst.length := List.length_set
      have lower : lowerBits rem k (operand src dst) = some (if rem ≠ 0 ∧ k > 0 then op.getD (k - 1) 0 >>> (64 - rem) else 0) := by
        rw [lowerBits]
        split
        · rw [entry (by omega), Option.map_some, unread _ (by omega)]
        · rfl
      obtain ⟨dst', run, length', words⟩ := @ih (dst.set (k + off) (leftWord op rem k)) (by omega)
        (by rw [operand_length length]; omega) (fun q less =>
          (operand_entry (by rw [entries, if_neg (by omega)])).trans (unread q (by omega)))
      refine ⟨dst', ?_, length'.trans length, fun j => ?_⟩
      · rw [shiftLeftRounds, lower, entry (by omega : k < (operand src dst).length), unread k (Nat.lt_succ_self k)]
        exact (congrArg (· >>= shiftLeftRounds src off rem k) stored).trans run
      · rw [words, entries]
        by_cases here : j = k + off
        · rw [if_neg (by omega), if_pos here, if_pos (by omega), here, Nat.add_sub_cancel]
        · by_cases moved : off ≤ j ∧ j < k + off
          · rw [if_pos moved, if_pos (by omega)]
          · rw [if_neg moved, if_neg here, if_neg (by omega)]

/-- The left shift drops the bits that leave the words, and what is above the last bit may be garbage. -/
theorem bitmapShiftLeftInto_eq {src : Option (List Word)} {dst : List Word} {shift nbits : Nat} (less : shift < nbits)
    (room : bitsToLongs nbits ≤ dst.length) (room' : bitsToLongs nbits ≤ (operand src dst).length) :
    ∃ dst', bitmapShiftLeftInto src dst shift nbits = some dst' ∧ dst'.length = dst.length ∧ ∀ i, bit dst' i =
      if i < 64 * bitsToLongs nbits then decide (shift ≤ i) && bit (operand src dst) (i - shift) else bit dst i := by
  have within : shift / 64 < bitsToLongs nbits := by
    unfold bitsToLongs
    omega
  obtain ⟨dst', run, length, words⟩ := @shiftLeft_words src dst (operand src dst) (shift / 64) (shift % 64) (bitsToLongs nbits - shift / 64)
    (by omega) (by omega) fun q _ => rfl
  obtain ⟨dst'', cleared, length', words'⟩ := @clearFrom_eq dst' 0 (shift / 64) (by omega)
  have ended : (if shift / 64 ≠ 0 then clearWords (shift / 64) dst' else some dst') = some dst'' := by
    have same : clearFrom 0 (shift / 64) dst' = clearWords (shift / 64) dst' := by
      rw [clearFrom, List.drop_zero, List.take_zero]
      exact Option.map_id'
    split
    · rw [← same]
      exact cleared
    · rename_i none
      rw [← cleared, not_not.mp none, clearFrom, clearWords, if_pos (Nat.zero_le _)]
      rfl
  refine ⟨dst'', ?_, length'.trans length, fun i => ?_⟩
  · rw [bitmapShiftLeftInto, run]
    exact ended
  · have place : i % 64 < 64 := Nat.mod_lt _ (by decide)
    have part : shift % 64 < 64 := Nat.mod_lt _ (by decide)
    rw [bit, words', words]
    by_cases low : i / 64 < shift / 64
    · rw [if_pos (by omega), if_pos (by omega), decide_eq_false (by omega)]
      simp
    · by_cases inside : i < 64 * bitsToLongs nbits
      · have back : 64 * (i / 64 - shift / 64) + i % 64 = i - 64 * (shift / 64) := by omega
        have source : i - 64 * (shift / 64) - shift % 64 = i - shift := by omega
        rw [if_neg (by omega), if_pos (by omega), if_pos inside, getLsbD_leftWord part place, back, source]
        congr 1
        exact decide_eq_decide.mpr (by omega)
      · rw [if_neg (by omega), if_neg (by omega), if_neg inside, bit]

end Miracle.Bitmap
