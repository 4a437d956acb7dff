import Miracle.Lib.Word

/-! # Bitmaps in memory

A bitmap is an array of `u64` words, and the operations of `bitmap.c` that the parsers use work
on whole words.  An access beyond the array has no result.
-/

namespace Miracle.Bitmap

abbrev Word := BitVec 64

/-- `BITS_TO_LONGS`. -/
def bitsToLongs (nbits : Nat) : Nat := (nbits + 63) / 64

/-- Bit `i` of the array. -/
def bit (ws : List Word) (i : Nat) : Bool := (ws.getD (i / 64) 0).getLsbD (i % 64)

/-- `BITMAP_FIRST_WORD_MASK`. -/
def firstWordMask (start : Nat) : Word := BitVec.allOnes 64 <<< (start % 64)

/-- `BITMAP_LAST_WORD_MASK`. -/
def lastWordMask (nbits : Nat) : Word := BitVec.allOnes 64 >>> ((2 ^ 32 - nbits) % 64)

/-- Reduction of a value to the range of an `int`. -/
def s32 (n : Int) : Int := n.bmod (2 ^ 32)

/-! ## Operations -/

def store (ws : List Word) (k : Nat) (w : Word) : Option (List Word) := if k < ws.length then some (ws.set k w) else none

/-- `memset(dst, 0, n * sizeof(u64))`. -/
def clearWords (n : Nat) (ws : List Word) : Option (List Word) :=
  if n ≤ ws.length then some (List.replicate n 0 ++ ws.drop n) else none

def bitmapZero (ws : List Word) (nbits : Nat) : Option (List Word) := clearWords (bitsToLongs nbits) ws

/-- The loop of `__bitmap_set` and what follows it, on the words from `p` on. -/
def setLoop (size : Nat) : List Word → Int → Int → Word → Option (List Word)
  | [], len, bitsToSet, _ => if len - bitsToSet ≥ 0 ∨ len ≠ 0 then none else some []
  | w :: p, len, bitsToSet, maskToSet =>
      if len - bitsToSet ≥ 0 then
        (setLoop size p (len - bitsToSet) 64 (BitVec.allOnes 64)).map ((w ||| maskToSet) :: ·)
      else if len ≠ 0 then some ((w ||| (maskToSet &&& lastWordMask size)) :: p)
      else some (w :: p)

/-- `bitmap_set`, which passes its length on to `__bitmap_set` as an `int`. -/
def bitmapSet (map : List Word) (start nbits : Nat) : Option (List Word) :=
  let size := u32 (start + nbits)
  let bitsToSet : Int := 64 - (start % 64 : Nat)
  (setLoop size (map.drop (start / 64)) (s32 nbits) bitsToSet (firstWordMask start)).map (map.take (start / 64) ++ ·)

/-- The bits that come from word `k - 1`. -/
def lowerBits (rem k : Nat) (src : List Word) : Option Word :=
  if rem ≠ 0 ∧ k > 0 then (src[k - 1]?).map fun w : Word => w >>> (64 - rem) else some 0

/-- The loop of `__bitmap_shift_left` on one array, downwards from word `k - 1`. -/
def shiftLeftLoop (off rem : Nat) : Nat → List Word → Option (List Word)
  | 0, dst => some dst
  | k + 1, dst => do
      let lower ← lowerBits rem k dst
      let w ← dst[k]?
      let dst ← store dst (k + off) (lower ||| w <<< rem)
      shiftLeftLoop off rem k dst

/-- `__bitmap_shift_left` with `src = dst`. -/
def bitmapShiftLeft (dst : List Word) (shift nbits : Nat) : Option (List Word) := do
  let lim := bitsToLongs nbits
  let off := shift / 64
  let rem := shift % 64
  let dst ← shiftLeftLoop off rem (lim - off) dst
  clearWords off dst

/-! ## Bits of an array -/

@[simp] theorem bit_nil (i : Nat) : bit [] i = false := by simp [bit]

theorem bit_cons (w : Word) (ws : List Word) (i : Nat) : bit (w :: ws) i = if i < 64 then w.getLsbD i else bit ws (i - 64) := by
  unfold bit
  by_cases here : i < 64
  · rw [if_pos here, Nat.div_eq_of_lt here, Nat.mod_eq_of_lt here]
    rfl
  · have word : i / 64 = (i - 64) / 64 + 1 := by omega
    have place : i % 64 = (i - 64) % 64 := by omega
    rw [if_neg here, word, place, List.getD_cons_succ]

theorem bit_beyond {ws : List Word} {i : Nat} (beyond : 64 * ws.length ≤ i) : bit ws i = false := by
  have out : ws.length ≤ i / 64 := by omega
  rw [bit, List.getD_eq_default _ _ out]
  simp

theorem entry {ws : List Word} {k : Nat} (inside : k < ws.length) : ws[k]? = some (ws.getD k 0) := by
  rw [List.getElem?_eq_getElem inside, List.getD_eq_getElem _ _ inside]

theorem bit_word (ws : List Word) (k : Nat) {t : Nat} (inside : t < 64) : bit ws (64 * k + t) = (ws.getD k 0).getLsbD t := by
  have word : (64 * k + t) / 64 = k := by omega
  have place : (64 * k + t) % 64 = t := by omega
  rw [bit, word, place]

theorem word_zero {w : Word} : w = 0 ↔ ∀ t < 64, w.getLsbD t = false := by
  constructor
  · rintro rfl t -
    simp
  · intro clear
    refine BitVec.eq_of_getLsbD_eq fun t inside => ?_
    rw [clear t inside]
    simp

theorem word_ne_zero {w : Word} : (w != 0) = true ↔ ∃ t < 64, w.getLsbD t = true := by
  rw [bne_iff_ne, ne_eq, word_zero]
  push Not
  exact exists_congr fun t => and_congr_right fun _ => Bool.not_eq_false _ ▸ Iff.rfl

theorem bit_append (ws vs : List Word) (i : Nat) :
    bit (ws ++ vs) i = if i < 64 * ws.length then bit ws i else bit vs (i - 64 * ws.length) := by
  induction ws generalizing i with
  | nil => simp
  | cons w ws ih =>
      rw [List.cons_append, bit_cons, bit_cons, ih, List.length_cons]
      by_cases here : i < 64
      · have inside : i < 64 * (ws.length + 1) := by omega
        rw [if_pos here, if_pos inside, if_pos here]
      · have same : (i - 64 < 64 * ws.length) = (i < 64 * (ws.length + 1)) := propext (by omega)
        have rest : i - 64 - 64 * ws.length = i - 64 * (ws.length + 1) := by omega
        simp only [if_neg here, same, rest]

theorem bit_replicate (n i : Nat) : bit (List.replicate n 0) i = false := by
  induction n generalizing i with
  | zero => exact bit_nil i
  | succ n ih => rw [List.replicate_succ, bit_cons, ih]; simp

/-- Words that hold that many bits hold bit `i`. -/
theorem lt_bitsToLongs {nbits i : Nat} (lt : i < nbits) : i < 64 * bitsToLongs nbits := by
  unfold bitsToLongs
  omega

/-! ## What the operations do to the bits -/

theorem bitmapZero_spec {ws : List Word} {nbits : Nat} (room : ws.length = bitsToLongs nbits) :
    bitmapZero ws nbits = some (List.replicate ws.length 0) := by
  rw [bitmapZero, clearWords, if_pos room.ge, List.drop_eq_nil_of_le room.le, List.append_nil, room]

theorem getLsbD_firstWordMask (r t : Nat) : (firstWordMask r).getLsbD t = (decide (r % 64 ≤ t) && decide (t < 64)) := by
  simp only [firstWordMask, BitVec.getLsbD_shiftLeft, BitVec.getLsbD_allOnes]
  by_cases low : t < r % 64
  · simp [low]
  · by_cases inside : t < 64
    · have within : t - r % 64 < 64 := by omega
      simp [low, Nat.not_lt.mp low, inside, within]
    · simp [inside]

theorem getLsbD_lastWordMask {size n t : Nat} (pos : 0 < n) (within : n ≤ 64) (small : size < 2 ^ 32) (same : size % 64 = n % 64) :
    (lastWordMask size).getLsbD t = decide (t < n) := by
  have shift : (2 ^ 32 - size) % 64 = 64 - n := by omega
  simp only [lastWordMask, BitVec.getLsbD_ushiftRight, BitVec.getLsbD_allOnes, shift]
  exact decide_eq_decide.mpr (by omega)

theorem getLsbD_bitMask (nr : Nat) {t : Nat} (place : t < 64) : (1#64 <<< (nr % 64)).getLsbD t = decide (t = nr % 64) := by
  rw [BitVec.getLsbD_shiftLeft, decide_eq_true place, Bool.true_and, BitVec.getLsbD_one, Bool.eq_iff_iff]
  simp only [Bool.and_eq_true, Bool.not_eq_true', decide_eq_true_eq, decide_eq_false_iff_not]
  omega

theorem setLoop_spec {size : Nat} {p : List Word} {r n : Nat} (offset : r < 64) (small : size < 2 ^ 32) (ends : size % 64 = (r + n) % 64)
    (room : r + n ≤ 64 * p.length) :
    ∃ p', setLoop size p n (64 - (r : Nat)) (firstWordMask r) = some p' ∧ p'.length = p.length ∧
      ∀ i, bit p' i = (bit p i || decide (r ≤ i ∧ i < r + n)) := by
  induction p generalizing r n with
  | nil =>
      rw [List.length_nil] at room
      obtain rfl : n = 0 := by omega
      obtain rfl : r = 0 := by omega
      exact ⟨[], rfl, rfl, fun i => by simp⟩
  | cons w p ih =>
      rw [List.length_cons] at room
      rw [setLoop]
      by_cases whole : 64 ≤ r + n
      · have more : (n : Int) - (64 - (r : Nat)) ≥ 0 := by omega
        have left : (n : Int) - (64 - (r : Nat)) = ((r + n - 64 : Nat) : Int) := by omega
        have full : firstWordMask 0 = BitVec.allOnes 64 := by decide
        obtain ⟨p', run, length, bits⟩ := @ih 0 (r + n - 64) (by decide) (by omega) (by omega)
        rw [full, Nat.cast_zero, sub_zero] at run
        rw [if_pos more, left, run]
        refine ⟨_, rfl, by rw [List.length_cons, List.length_cons, length], fun i => ?_⟩
        rw [bit_cons, bit_cons, bits, BitVec.getLsbD_or, getLsbD_firstWordMask]
        by_cases here : i < 64
        · simp only [if_pos here, Nat.mod_eq_of_lt offset]
          congr 1
          rw [Bool.eq_iff_iff]
          simp only [Bool.and_eq_true, decide_eq_true_eq]
          omega
        · simp only [if_neg here]
          congr 1
          exact decide_eq_decide.mpr (by omega)
      · have last : ¬ (n : Int) - (64 - (r : Nat)) ≥ 0 := by omega
        rw [if_neg last]
        by_cases empty : n = 0
        · subst empty
          refine ⟨w :: p, if_neg (by simp), rfl, fun i => ?_⟩
          have outside : ¬ (r ≤ i ∧ i < r + 0) := by omega
          rw [decide_eq_false outside, Bool.or_false]
        · have more : (n : Int) ≠ 0 := by omega
          rw [if_pos more]
          refine ⟨_, rfl, rfl, fun i => ?_⟩
          have mask := getLsbD_lastWordMask (t := i) (by omega : 0 < r + n) (by omega) small ends
          rw [bit_cons, bit_cons, BitVec.getLsbD_or, BitVec.getLsbD_and, getLsbD_firstWordMask, mask]
          by_cases here : i < 64
          · simp only [if_pos here, Nat.mod_eq_of_lt offset]
            congr 1
            rw [Bool.eq_iff_iff]
            simp only [Bool.and_eq_true, decide_eq_true_eq]
            omega
          · have outside : ¬ (r ≤ i ∧ i < r + n) := by omega
            simp only [if_neg here, decide_eq_false outside, Bool.or_false]

/-- `bitmap_set` stays inside the words and sets exactly its bits. -/
theorem bitmapSet_eq {ws : List Word} {start nbits : Nat} (int : nbits < 2 ^ 31) (small : start + nbits < 2 ^ 32) (room : start + nbits ≤ 64 * ws.length) :
    ∃ ws', bitmapSet ws start nbits = some ws' ∧ ws'.length = ws.length ∧
      ∀ i, bit ws' i = (bit ws i || decide (start ≤ i ∧ i < start + nbits)) := by
  have len : s32 nbits = nbits := Int.bmod_eq_of_le (by omega) (by omega)
  have first : firstWordMask start = firstWordMask (start % 64) := by rw [firstWordMask, firstWordMask, Nat.mod_mod]
  have size : u32 (start + nbits) = start + nbits := u32_of_lt small
  obtain ⟨p', run, length, bits⟩ := @setLoop_spec (u32 (start + nbits)) (ws.drop (start / 64)) (start % 64) nbits
    (by omega) (u32_lt _) (by rw [size]; omega) (by rw [List.length_drop]; omega)
  have count : (ws.take (start / 64)).length = start / 64 := List.length_take_of_le (by omega)
  refine ⟨ws.take (start / 64) ++ p', ?_, ?_, fun i => ?_⟩
  · simp only [bitmapSet, len, first]
    rw [run]
    rfl
  · rw [List.length_append, count, length, List.length_drop]
    omega
  · have split := bit_append (ws.take (start / 64)) (ws.drop (start / 64)) i
    rw [List.take_append_drop, count] at split
    rw [bit_append, count, split]
    by_cases before : i < 64 * (start / 64)
    · rw [if_pos before, if_pos before, decide_eq_false (by omega), Bool.or_false]
    · have same : (start % 64 ≤ i - 64 * (start / 64) ∧ i - 64 * (start / 64) < start % 64 + nbits) ↔ start ≤ i ∧ i < start + nbits := by omega
      rw [if_neg before, if_neg before, bits, decide_eq_decide.mpr same]

theorem bitmapSet_spec {ws : List Word} {start nbits : Nat} (small : start + nbits < 2 ^ 31) (room : start + nbits ≤ 64 * ws.length) :
    ∃ ws', bitmapSet ws start nbits = some ws' ∧ ws'.length = ws.length ∧
      ∀ i, bit ws' i = (bit ws i || decide (start ≤ i ∧ i < start + nbits)) :=
  bitmapSet_eq (by omega) (by omega) room

theorem store_eq {ws : List Word} {k : Nat} (inside : k < ws.length) (w : Word) :
    store ws k w = some (ws.set k w) ∧ ∀ j, (ws.set k w).getD j 0 = if j = k then w else ws.getD j 0 := by
  refine ⟨if_pos inside, fun j => ?_⟩
  by_cases same : j = k
  · subst same
    rw [if_pos rfl, List.getD_eq_getElem _ _ (by rw [List.length_set]; exact inside)]
    exact List.getElem_set_self _
  · rw [if_neg same, List.getD_eq_getElem?_getD, List.getD_eq_getElem?_getD, List.getElem?_set_ne (Ne.symm same)]

theorem shiftLeftLoop_spec {off rem k : Nat} {dst : List Word} (room : k + off ≤ dst.length) :
    ∃ dst', shiftLeftLoop off rem k dst = some dst' ∧ dst'.length = dst.length ∧
      ∀ j, dst'.getD j 0 = if off ≤ j ∧ j < k + off then
        (if rem ≠ 0 ∧ j - off > 0 then dst.getD (j - off - 1) 0 >>> (64 - rem) else 0) ||| dst.getD (j - off) 0 <<< rem
      else dst.getD j 0 := by
  induction k generalizing dst with
  | zero => exact ⟨dst, rfl, rfl, fun j => by rw [if_neg (by omega)]⟩
  | succ k ih =>
      have here : k < dst.length := by omega
      have target : k + off < dst.length := by omega
      have entry (j : Nat) (below : j < dst.length) : dst[j]? = some (dst.getD j 0) := by
        rw [List.getD_eq_getElem _ _ below, List.getElem?_eq_getElem below]
      let lower : Word := if rem ≠ 0 ∧ k > 0 then dst.getD (k - 1) 0 >>> (64 - rem) else 0
      let next := dst.set (k + off) (lower ||| dst.getD k 0 <<< rem)
      have next_length : next.length = dst.length := List.length_set
      obtain ⟨stored, next_entry⟩ := store_eq target (lower ||| dst.getD k 0 <<< rem)
      obtain ⟨dst', run, length, words⟩ := @ih next (by omega)
      refine ⟨dst', ?_, length.trans next_length, fun j => ?_⟩
      · have step : lowerBits rem k dst = some lower := by
          rw [lowerBits, entry (k - 1) (by omega)]
          exact (apply_ite some _ _ _).symm
        rw [shiftLeftLoop, step, entry k here]
        exact (congrArg (· >>= shiftLeftLoop off rem k) stored).trans run
      · rw [words, next_entry, next_entry, next_entry]
        by_cases moved : off ≤ j ∧ j < k + off
        · have apart : j - off - 1 ≠ k + off := by omega
          have apart' : j - off ≠ k + off := by omega
          have within : off ≤ j ∧ j < k + 1 + off := by omega
          rw [if_pos moved, if_pos within, if_neg apart, if_neg apart']
        · rw [if_neg moved]
          by_cases last : j = k + off
          · have within : off ≤ j ∧ j < k + 1 + off := by omega
            have source : j - off = k := by omega
            rw [if_pos last, if_pos within, source]
          · have outside : ¬ (off ≤ j ∧ j < k + 1 + off) := by omega
            rw [if_neg last, if_neg outside]

/-- `bitmap_shift_left` stays inside the words, and bits that leave them are lost. -/
theorem bitmapShiftLeft_spec {ws : List Word} {shift nbits : Nat} (length : ws.length = bitsToLongs nbits) (inside : shift / 64 ≤ ws.length) :
    ∃ ws', bitmapShiftLeft ws shift nbits = some ws' ∧ ws'.length = ws.length ∧
      ∀ i, bit ws' i = (decide (shift ≤ i ∧ i < 64 * ws.length) && bit ws (i - shift)) := by
  obtain ⟨dst, run, count, words⟩ := @shiftLeftLoop_spec (shift / 64) (shift % 64) (bitsToLongs nbits - shift / 64) ws (by omega)
  have clear : clearWords (shift / 64) dst = some (List.replicate (shift / 64) 0 ++ dst.drop (shift / 64)) := if_pos (by omega)
  have drop : (List.replicate (shift / 64) (0 : Word) ++ dst.drop (shift / 64)).length = ws.length := by
    rw [List.length_append, List.length_replicate, List.length_drop]
    omega
  refine ⟨_, ?_, drop, fun i => ?_⟩
  · rw [bitmapShiftLeft, run]
    exact clear
  · rw [bit_append, List.length_replicate, bit_replicate]
    by_cases low : i < 64 * (shift / 64)
    · have outside : ¬ (shift ≤ i ∧ i < 64 * ws.length) := by omega
      rw [if_pos low, decide_eq_false outside, Bool.false_and]
    · rw [if_neg low]
      by_cases high : i < 64 * ws.length
      · have back : shift / 64 + (i - 64 * (shift / 64)) / 64 = i / 64 := by omega
        have place : (i - 64 * (shift / 64)) % 64 = i % 64 := by omega
        have moved : shift / 64 ≤ i / 64 ∧ i / 64 < bitsToLongs nbits - shift / 64 + shift / 64 := by omega
        have word : (dst.drop (shift / 64)).getD ((i - 64 * (shift / 64)) / 64) 0 = dst.getD (i / 64) 0 := by
          rw [List.getD_eq_getElem?_getD, List.getElem?_drop, back, List.getD_eq_getElem?_getD]
        rw [bit, place, word, words, if_pos moved, BitVec.getLsbD_or, BitVec.getLsbD_shiftLeft]
        by_cases upper : i % 64 < shift % 64
        · -- the bits that come from the word below
          have none : (decide (i % 64 < 64) && !decide (i % 64 < shift % 64) && (ws.getD (i / 64 - shift / 64) 0).getLsbD (i % 64 - shift % 64)) = false := by
            simp [upper]
          rw [none, Bool.or_false]
          have rem : shift % 64 ≠ 0 := by omega
          by_cases first : i / 64 - shift / 64 > 0
          · have reached : shift ≤ i ∧ i < 64 * ws.length := by omega
            have source : (i - shift) / 64 = i / 64 - shift / 64 - 1 := by omega
            have offset : (i - shift) % 64 = 64 - shift % 64 + i % 64 := by omega
            rw [if_pos ⟨rem, first⟩, decide_eq_true reached, Bool.true_and, bit, source, offset, BitVec.getLsbD_ushiftRight]
          · have short : ¬ (shift ≤ i ∧ i < 64 * ws.length) := by omega
            rw [if_neg (fun both => first both.2), decide_eq_false short, Bool.false_and]
            simp
        · have reached : shift ≤ i ∧ i < 64 * ws.length := by omega
          have source : (i - shift) / 64 = i / 64 - shift / 64 := by omega
          have offset : (i - shift) % 64 = i % 64 - shift % 64 := by omega
          have below : (if shift % 64 ≠ 0 ∧ i / 64 - shift / 64 > 0 then ws.getD (i / 64 - shift / 64 - 1) 0 >>> (64 - shift % 64)
              else (0 : Word)).getLsbD (i % 64) = false := by
            split
            · rw [BitVec.getLsbD_ushiftRight]
              exact BitVec.getLsbD_of_ge _ _ (by omega)
            · simp
          have word : i % 64 < 64 := Nat.mod_lt _ (by decide)
          rw [below, Bool.false_or, decide_eq_true reached, decide_eq_true word, decide_eq_false upper, bit, source, offset]
          rfl
      · have outside : ¬ (shift ≤ i ∧ i < 64 * ws.length) := by omega
        rw [decide_eq_false outside, Bool.false_and]
        exact bit_beyond (by rw [List.length_drop]; omega)

end Miracle.Bitmap
