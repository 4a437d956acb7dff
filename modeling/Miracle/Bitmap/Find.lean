import Miracle.Bitmap.Words
import Miracle.Lib.BitScan

/-! # Searches in a bitmap

`find_bit.c` searches word by word.  The first word is masked below the offset, and what is found
in the last word is cut at the size.  Each search is a scan over the bits.
-/

namespace Miracle.Bitmap

open BitScan

/-- The bits of an array are numbered by `u64` values, with room for an alignment. -/
def Addressable (ws : List Word) : Prop := ws.length < 2 ^ 56

/-- `__builtin_ctzl`, for a word with a set bit. -/
def ctzl (w : Word) : Nat := firstFrom w.getLsbD true 64 0

/-- `__builtin_clzl`, for a word with a set bit. -/
def clzl (w : Word) : Nat := 63 - (lastBelow w.getLsbD 64).getD 0

/-- `__ffs`. -/
def lowestBit (w : Word) : Nat := ctzl w

/-- `__fls`. -/
def highestBit (w : Word) : Nat := 64 - 1 - clzl w

/-- `BITMAP_LAST_WORD_MASK` of a `u64`. -/
def lastMask (size : Nat) : Word := BitVec.allOnes 64 >>> ((2 ^ 64 - size) % 64)

/-- A word of the arrays that `_find_next_bit` searches. -/
def fetch (addr1 : List Word) (addr2 : Option (List Word)) (invert : Word) (k : Nat) : Option Word := do
  let tmp ← addr1[k]?
  let tmp ← match addr2 with
    | none => some tmp
    | some addr2 => (addr2[k]?).map fun w => tmp &&& w
  some (tmp ^^^ invert)

/-- The loop of `_find_next_bit` and what follows it. -/
def findWhile (word : Nat → Option Word) (nbits : Nat) : Nat → Nat → Word → Option Nat
  | 0, _, _ => none
  | fuel + 1, start, tmp =>
      if tmp = 0 then
        let start := u64 (start + 64)
        if nbits ≤ start then some nbits else do findWhile word nbits fuel start (← word (start / 64))
      else some (min (u64 (start + lowestBit tmp)) nbits)

/-- `_find_next_bit`. -/
def findNextIn (addr1 : List Word) (addr2 : Option (List Word)) (nbits start : Nat) (invert : Word) : Option Nat :=
  if nbits ≤ start then some nbits
  else do
    let tmp ← fetch addr1 addr2 invert (start / 64)
    findWhile (fetch addr1 addr2 invert) nbits (nbits / 64 + 1) (start - start % 64) (tmp &&& firstWordMask start)

def findNextBit (addr : List Word) (size offset : Nat) : Option Nat := findNextIn addr none size offset 0

def findNextZeroBit (addr : List Word) (size offset : Nat) : Option Nat := findNextIn addr none size offset (BitVec.allOnes 64)

def findNextAndBit (addr1 addr2 : List Word) (size offset : Nat) : Option Nat := findNextIn addr1 (some addr2) size offset 0

/-- The loop of `find_first_bit`, and of `find_first_zero_bit`, where `ffz` is `__ffs` of the inverted word. -/
def firstLoop (word : Nat → Option Word) (size : Nat) : Nat → Nat → Option Nat
  | 0, _ => none
  | fuel + 1, idx =>
      if idx * 64 < size then do
        let w ← word idx
        if w ≠ 0 then some (min (idx * 64 + lowestBit w) size) else firstLoop word size fuel (idx + 1)
      else some size

def findFirstBit (addr : List Word) (size : Nat) : Option Nat := firstLoop (fun k => addr[k]?) size (size + 1) 0

def findFirstZeroBit (addr : List Word) (size : Nat) : Option Nat := firstLoop (fun k => (addr[k]?).map (~~~ ·)) size (size + 1) 0

/-- The loop of `find_last_bit`, down to word 0. -/
def lastLoop (addr : List Word) : Nat → Word → Option (Option Nat)
  | 0, val => do
      let val := val &&& (← addr[0]?)
      some (if val ≠ 0 then some (0 * 64 + highestBit val) else none)
  | idx + 1, val => do
      let val := val &&& (← addr[idx + 1]?)
      if val ≠ 0 then some (some ((idx + 1) * 64 + highestBit val)) else lastLoop addr idx (BitVec.allOnes 64)

def findLastBit (addr : List Word) (size : Nat) : Option Nat :=
  if size ≠ 0 then (lastLoop addr ((size - 1) / 64) (lastMask size)).map fun found => found.getD size else some size

/-! ## One word -/

theorem lowestBit_spec {w : Word} (some : w ≠ 0) :
    lowestBit w < 64 ∧ w.getLsbD (lowestBit w) = true ∧ ∀ t < lowestBit w, w.getLsbD t = false := by
  obtain ⟨-, upper, found, before⟩ := firstFrom_spec w.getLsbD true 64 0
  have inside : lowestBit w < 64 := by
    by_contra out
    refine some (word_zero.mpr fun t less => before t (Nat.zero_le t) ?_)
    change t < lowestBit w
    omega
  exact ⟨inside, found inside, fun t less => before t (Nat.zero_le t) less⟩

theorem highestBit_spec {w : Word} (some : w ≠ 0) :
    highestBit w < 64 ∧ w.getLsbD (highestBit w) = true ∧ ∀ t, highestBit w < t → t < 64 → w.getLsbD t = false := by
  cases last : lastBelow w.getLsbD 64 with
  | none => exact absurd (word_zero.mpr (lastBelow_none last)) some
  | some l =>
      obtain ⟨below, set, after⟩ := lastBelow_some last
      have is : highestBit w = l := by
        rw [highestBit, clzl, last, Option.getD_some]
        omega
      rw [is]
      exact ⟨below, set, after⟩

/-! ## The next bit -/

section Scan

variable {word : Nat → Option Word} {m : Nat → Bool} {lim : Nat}

/-- The words of a bitmap. -/
def Shows (word : Nat → Option Word) (m : Nat → Bool) (lim : Nat) : Prop :=
  ∀ k < lim, ∃ w, word k = some w ∧ ∀ t < 64, w.getLsbD t = m (64 * k + t)

/-- Up to `start` nothing is found, and `tmp` has the bits from there on. -/
theorem findWhile_eq {nbits offset fuel start : Nat} {tmp : Word} (shows : Shows word m lim) (room : nbits ≤ 64 * lim) (small : 64 * lim < 2 ^ 64)
    (enough : nbits < 64 * fuel + start) (aligned : 64 ∣ start) (inside : start < nbits) (within : offset < nbits) (below : offset < start + 64)
    (bits : ∀ t < 64, tmp.getLsbD t = (m (start + t) && decide (offset ≤ start + t))) (before : ∀ j, offset ≤ j → j < start → m j = false) :
    findWhile word nbits fuel start tmp = some (findNext m true nbits offset) := by
  induction fuel generalizing start tmp with
  | zero => omega
  | succ fuel ih =>
      rw [findWhile]
      have next : u64 (start + 64) = start + 64 := u64_of_lt (by omega)
      by_cases zero : tmp = 0
      · have clear (j : Nat) (from_ : offset ≤ j) (less : j < start + 64) : m j = false := by
          rcases Nat.lt_or_ge j start with early | late
          · exact before j from_ early
          · have here := bits (j - start) (by omega)
            rw [word_zero.mp zero _ (by omega), Nat.add_sub_of_le late, decide_eq_true from_, Bool.and_true] at here
            exact here.symm
        rw [if_pos zero]
        simp only [next]
        by_cases past : nbits ≤ start + 64
        · rw [if_pos past, findNext_eq (by omega) le_rfl (fun less => absurd less (lt_irrefl _)) fun j from_ less => clear j from_ (by omega)]
        · obtain ⟨w, read, content⟩ := shows ((start + 64) / 64) (by omega)
          have place : 64 * ((start + 64) / 64) = start + 64 := Nat.mul_div_cancel' (by omega)
          rw [if_neg past, read]
          refine ih (by omega) (by omega) (by omega) (by omega) (fun t less => ?_) clear
          rw [content t less, place, decide_eq_true (by omega), Bool.and_true]
      · obtain ⟨near, set, earlier⟩ := lowestBit_spec zero
        have hit := bits _ near
        rw [set] at hit
        obtain ⟨found, from_⟩ := Bool.and_eq_true_iff.mp hit.symm
        have from_ := of_decide_eq_true from_
        rw [if_neg zero, u64_of_lt (by omega)]
        refine congrArg some (findNext_eq (by omega) (Nat.min_le_right _ _) (fun less => ?_) fun j lower less => ?_).symm
        · rw [Nat.min_eq_left (by omega)]
          exact found
        · rcases Nat.lt_or_ge j start with early | late
          · exact before j lower early
          · have here := bits (j - start) (by omega)
            rw [earlier _ (by omega), Nat.add_sub_of_le late, decide_eq_true lower, Bool.and_true] at here
            exact here.symm

theorem firstLoop_eq {size fuel idx : Nat} (shows : Shows word m lim) (room : size ≤ 64 * lim) (enough : size < fuel + idx)
    (reached : 64 * idx < size + 64) (before : ∀ j, j < 64 * idx → j < size → m j = false) :
    firstLoop word size fuel idx = some (findNext m true size 0) := by
  induction fuel generalizing idx with
  | zero => omega
  | succ fuel ih =>
      rw [firstLoop]
      by_cases more : idx * 64 < size
      · obtain ⟨w, read, content⟩ := shows idx (by omega)
        rw [if_pos more, read]
        simp only [Option.bind_eq_bind, Option.bind_some]
        by_cases zero : w = 0
        · rw [if_neg (not_not.mpr zero)]
          refine ih (by omega) (by omega) fun j less inside => ?_
          rcases Nat.lt_or_ge j (64 * idx) with early | late
          · exact before j early inside
          · have here := content (j - 64 * idx) (by omega)
            rw [word_zero.mp zero _ (by omega), Nat.add_sub_of_le late] at here
            exact here.symm
        · obtain ⟨near, set, earlier⟩ := lowestBit_spec zero
          rw [if_pos zero]
          refine congrArg some (findNext_eq (Nat.zero_le _) (Nat.min_le_right _ _) (fun less => ?_) fun j _ less => ?_).symm
          · rw [Nat.min_eq_left (by omega), Nat.mul_comm, ← content _ near]
            exact set
          · rcases Nat.lt_or_ge j (64 * idx) with early | late
            · exact before j early (by omega)
            · have here := content (j - 64 * idx) (by omega)
              rw [earlier _ (by omega), Nat.add_sub_of_le late] at here
              exact here.symm
      · rw [if_neg more, findNext_eq (Nat.zero_le _) le_rfl (fun less => absurd less (lt_irrefl _)) fun j _ less => before j (by omega) less]

end Scan

theorem getLsbD_xor_ones {w : Word} {t : Nat} (inside : t < 64) : (w ^^^ BitVec.allOnes 64).getLsbD t = !w.getLsbD t := by
  rw [BitVec.getLsbD_xor, BitVec.getLsbD_allOnes, decide_eq_true inside, Bool.xor_true]

/-- The words that `_find_next_bit` reads. -/
theorem fetch_shows (ws : List Word) : Shows (fetch ws none 0) (bit ws) ws.length ∧
    Shows (fetch ws none (BitVec.allOnes 64)) (fun i => !bit ws i) ws.length := by
  constructor
  · intro k inside
    refine ⟨ws.getD k 0, ?_, fun t less => (bit_word ws k less).symm⟩
    rw [fetch, entry inside]
    exact congrArg some BitVec.xor_zero
  · intro k inside
    refine ⟨ws.getD k 0 ^^^ BitVec.allOnes 64, by rw [fetch, entry inside]; rfl, fun t less => ?_⟩
    exact (getLsbD_xor_ones less).trans (congrArg (!·) (bit_word ws k less).symm)

theorem fetch_shows_and {ws vs : List Word} {lim : Nat} (one : lim ≤ ws.length) (other : lim ≤ vs.length) :
    Shows (fetch ws (some vs) 0) (fun i => bit ws i && bit vs i) lim := by
  intro k inside
  refine ⟨ws.getD k 0 &&& vs.getD k 0, ?_, fun t less => ?_⟩
  · rw [fetch, entry (by omega)]
    simp only [Option.bind_eq_bind, Option.bind_some, entry (by omega : k < vs.length), Option.map_some]
    exact congrArg some BitVec.xor_zero
  · rw [BitVec.getLsbD_and, ← bit_word ws k less, ← bit_word vs k less]

theorem findNextIn_eq {ws : List Word} {vs : Option (List Word)} {invert : Word} {m : Nat → Bool} {lim size offset : Nat}
    (shows : Shows (fetch ws vs invert) m lim) (room : size ≤ 64 * lim) (small : 64 * lim < 2 ^ 64) :
    findNextIn ws vs size offset invert = some (findNext m true size offset) := by
  rw [findNextIn]
  by_cases past : size ≤ offset
  · rw [if_pos past, findNext_past past]
  · obtain ⟨w, read, content⟩ := shows (offset / 64) (by omega)
    have place : offset - offset % 64 = 64 * (offset / 64) := by omega
    rw [if_neg past, read]
    refine findWhile_eq shows room small (by omega) (by omega) (by omega) (by omega) (by omega) (fun t inside => ?_) fun j lower less => by omega
    rw [BitVec.getLsbD_and, content t inside, getLsbD_firstWordMask, place, decide_eq_true inside, Bool.and_true]
    congr 1
    exact decide_eq_decide.mpr (by omega)

theorem findNext_not (m : Nat → Bool) (size offset : Nat) : findNext (fun i => !m i) true size offset = findNext m false size offset := by
  obtain ⟨upper, lower, found, before⟩ := findNext_spec m false size offset
  by_cases past : size ≤ offset
  · rw [findNext_past past, findNext_past past]
  · refine findNext_eq (lower (by omega)) upper (fun less => ?_) fun j from_ less => ?_
    · rw [found less]
      rfl
    · rw [before j from_ less]
      rfl

theorem Addressable.bits {ws : List Word} (fits : Addressable ws) : 64 * ws.length < 2 ^ 62 := by
  unfold Addressable at fits
  omega

/-- A search reads the words of its bits only. -/
theorem Shows.mono {word : Nat → Option Word} {m : Nat → Bool} {lim lim' : Nat} (shows : Shows word m lim) (le : lim' ≤ lim) : Shows word m lim' :=
  fun k less => shows k (less.trans_le le)

theorem findNextBit_of {ws : List Word} {size offset : Nat} (small : size < 2 ^ 62) (room : size ≤ 64 * ws.length) :
    findNextBit ws size offset = some (BitScan.findNextBit (bit ws) size offset) := by
  have lim : bitsToLongs size ≤ ws.length := by
    unfold bitsToLongs
    omega
  exact findNextIn_eq ((fetch_shows ws).1.mono lim) (by unfold bitsToLongs; omega) (by unfold bitsToLongs; omega)

section Searches

variable {ws : List Word} {size offset : Nat}

theorem findNextBit_eq (fits : Addressable ws) (room : size ≤ 64 * ws.length) :
    findNextBit ws size offset = some (BitScan.findNextBit (bit ws) size offset) :=
  findNextIn_eq (fetch_shows ws).1 room (by have := fits.bits; omega)

theorem findNextZeroBit_eq (fits : Addressable ws) (room : size ≤ 64 * ws.length) :
    findNextZeroBit ws size offset = some (BitScan.findNextZeroBit (bit ws) size offset) :=
  (findNextIn_eq (fetch_shows ws).2 room (by have := fits.bits; omega)).trans (congrArg some (findNext_not _ _ _))

theorem findNextAndBit_eq {vs : List Word} (fits : Addressable ws) (room : size ≤ 64 * ws.length) (room' : size ≤ 64 * vs.length) :
    findNextAndBit ws vs size offset = some (BitScan.findNextBit (fun i => bit ws i && bit vs i) size offset) := by
  have small := fits.bits
  exact findNextIn_eq (fetch_shows_and (Nat.min_le_left ws.length vs.length) (Nat.min_le_right _ _)) (by omega) (by omega)

theorem findFirstBit_eq (room : size ≤ 64 * ws.length) : findFirstBit ws size = some (BitScan.findNextBit (bit ws) size 0) := by
  have shows : Shows (fun k => ws[k]?) (bit ws) ws.length := by
    intro k inside
    exact ⟨ws.getD k 0, entry inside, fun t less => (bit_word ws k less).symm⟩
  exact firstLoop_eq shows room (by omega) (by omega) fun j less _ => by omega

theorem findFirstZeroBit_eq (room : size ≤ 64 * ws.length) : findFirstZeroBit ws size = some (BitScan.findNextZeroBit (bit ws) size 0) := by
  have shows : Shows (fun k => (ws[k]?).map (~~~ ·)) (fun i => !bit ws i) ws.length := by
    intro k inside
    refine ⟨~~~ ws.getD k 0, congrArg (Option.map (~~~ ·)) (entry inside), fun t less => ?_⟩
    rw [BitVec.getLsbD_not, decide_eq_true less, Bool.true_and, ← bit_word ws k less]
  exact (firstLoop_eq shows room (by omega) (by omega) fun j less _ => by omega).trans (congrArg some (findNext_not _ _ _))

end Searches

/-! ## The last bit -/

theorem findLastBit_of {m : Nat → Bool} {size r : Nat}
    (is : (r = size ∧ Clear m 0 size) ∨ (r < size ∧ m r = true ∧ Clear m (r + 1) size)) : BitScan.findLastBit m size = r := by
  rcases findLastBit_spec m size with ⟨same, clear⟩ | ⟨less, set, after⟩ <;> rcases is with ⟨same', clear'⟩ | ⟨less', set', after'⟩
  · rw [same, same']
  · rw [clear r (Nat.zero_le r) less'] at set'
    exact absurd set' Bool.false_ne_true
  · rw [clear' _ (Nat.zero_le _) less] at set
    exact absurd set Bool.false_ne_true
  · rcases Nat.lt_trichotomy (BitScan.findLastBit m size) r with lt | eq | gt
    · rw [after r lt less'] at set'
      exact absurd set' Bool.false_ne_true
    · exact eq
    · rw [after' _ gt less] at set
      exact absurd set Bool.false_ne_true

/-- Above the bits that `val` keeps of word `idx` nothing is found. -/
theorem lastLoop_eq {ws : List Word} {size idx : Nat} {val : Word} (room : idx < ws.length) (inside : 64 * idx < size)
    (mask : ∀ t < 64, val.getLsbD t = decide (64 * idx + t < size)) (after : Clear (bit ws) (64 * idx + 64) size) :
    (lastLoop ws idx val).map (fun found => found.getD size) = some (BitScan.findLastBit (bit ws) size) := by
  have hit {idx : Nat} {val : Word} (mask : ∀ t < 64, val.getLsbD t = decide (64 * idx + t < size)) (after : Clear (bit ws) (64 * idx + 64) size)
      (zero : val &&& ws.getD idx 0 ≠ 0) : BitScan.findLastBit (bit ws) size = idx * 64 + highestBit (val &&& ws.getD idx 0) := by
    obtain ⟨near, set, later⟩ := highestBit_spec zero
    rw [BitVec.getLsbD_and, mask _ near] at set
    obtain ⟨below, set⟩ := Bool.and_eq_true_iff.mp set
    have below := of_decide_eq_true below
    have place : idx * 64 + highestBit (val &&& ws.getD idx 0) = 64 * idx + highestBit (val &&& ws.getD idx 0) := by omega
    rw [place]
    refine findLastBit_of (.inr ⟨below, by rw [bit_word ws idx near, set], fun j lower less => ?_⟩)
    rcases Nat.lt_or_ge j (64 * idx + 64) with here | above
    · have clear := later (j - 64 * idx) (by omega) (by omega)
      rw [BitVec.getLsbD_and, mask _ (by omega), decide_eq_true (by omega), Bool.true_and, ← bit_word ws idx (by omega),
        Nat.add_sub_of_le (by omega)] at clear
      exact clear
    · exact after j above less
  have miss {idx : Nat} {val : Word} (mask : ∀ t < 64, val.getLsbD t = decide (64 * idx + t < size)) (after : Clear (bit ws) (64 * idx + 64) size)
      (zero : val &&& ws.getD idx 0 = 0) : Clear (bit ws) (64 * idx) size := by
    intro j lower less
    rcases Nat.lt_or_ge j (64 * idx + 64) with here | above
    · have clear := word_zero.mp zero (j - 64 * idx) (by omega)
      rw [BitVec.getLsbD_and, mask _ (by omega), decide_eq_true (by omega), Bool.true_and, ← bit_word ws idx (by omega),
        Nat.add_sub_of_le (by omega)] at clear
      exact clear
    · exact after j above less
  induction idx generalizing val with
  | zero =>
      rw [lastLoop, entry room]
      simp only [Option.bind_eq_bind, Option.bind_some, Option.map_some]
      by_cases zero : val &&& ws.getD 0 0 = 0
      · rw [if_neg (not_not.mpr zero), Option.getD_none, findLastBit_of (.inl ⟨rfl, miss mask after zero⟩)]
      · rw [if_pos zero, Option.getD_some, hit mask after zero]
  | succ idx ih =>
      rw [lastLoop, entry room]
      simp only [Option.bind_eq_bind, Option.bind_some]
      by_cases zero : val &&& ws.getD (idx + 1) 0 = 0
      · rw [if_neg (not_not.mpr zero)]
        refine ih (by omega) (by omega) (fun t less => ?_) (miss mask after zero)
        rw [BitVec.getLsbD_allOnes]
        exact decide_eq_decide.mpr (by omega)
      · rw [if_pos zero, Option.map_some, Option.getD_some, hit mask after zero]

theorem findLastBit_eq {ws : List Word} {size : Nat} (fits : Addressable ws) (room : size ≤ 64 * ws.length) :
    findLastBit ws size = some (BitScan.findLastBit (bit ws) size) := by
  have small := fits.bits
  rw [findLastBit]
  by_cases none : size = 0
  · subst none
    rw [if_neg (not_not.mpr rfl), findLastBit_of (.inl ⟨rfl, fun i _ less => absurd less (Nat.not_lt_zero i)⟩)]
  · rw [if_pos none]
    refine lastLoop_eq (by omega) (by omega) (fun t less => ?_) fun i lower less => by omega
    rw [lastMask, BitVec.getLsbD_ushiftRight, BitVec.getLsbD_allOnes]
    exact decide_eq_decide.mpr (by omega)

/-! ## Areas of clear bits

`bitmap_find_next_zero_area_off` looks for an aligned area without a set bit, and starts again
behind every set bit it meets.  The offset is added before the alignment and taken away after it,
which is arithmetic of `u64` values.
-/

/-- `__ALIGN_MASK`. -/
def alignMask (x mask : Nat) : Nat := u64 (x + mask) &&& (2 ^ 64 - 1 - mask)

/-- The rounds of `bitmap_find_next_zero_area_off`. -/
def zeroAreaLoop (map : List Word) (size nr mask offset : Nat) : Nat → Nat → Option Nat
  | 0, _ => none
  | fuel + 1, start => do
      let index ← findNextZeroBit map size start
      let index := u64Sub (alignMask (u64 (index + offset)) mask) offset
      let stop := u64 (index + nr)
      if size < stop then some stop
      else do
        let i ← findNextBit map stop index
        if i < stop then zeroAreaLoop map size nr mask offset fuel (u64 (i + 1)) else some index

def bitmapFindNextZeroAreaOff (map : List Word) (size start nr mask offset : Nat) : Option Nat :=
  zeroAreaLoop map size nr mask offset (size + 1) start

/-- An area of clear bits in the bitmap, aligned with its offset. -/
def IsArea (m : Nat → Bool) (size start nr unit offset j : Nat) : Prop :=
  start ≤ j ∧ unit ∣ j + offset ∧ j + nr ≤ size ∧ Clear m j (j + nr)

/-- The least number that is not below `index` and has the alignment. -/
theorem align_offset {index offset k : Nat} (near : index < 2 ^ 63) (word : offset < 2 ^ 64) (le : k < 64) :
    ∃ d, u64Sub (alignMask (u64 (index + offset)) (2 ^ k - 1)) offset = index + d ∧ d < 2 ^ k ∧ 2 ^ k ∣ index + d + offset := by
  obtain ⟨q, whole⟩ : 2 ^ k ∣ 2 ^ 64 := pow_dvd_pow 2 le.le
  have small : 2 ^ k ≤ 2 ^ 63 := Nat.pow_le_pow_right (by decide) (by omega)
  have pos := Nat.two_pow_pos k
  have wordLt := u64_lt (index + offset)
  have is : alignMask (u64 (index + offset)) (2 ^ k - 1) = alignWord 64 (u64 (index + offset)) (2 ^ k) := rfl
  have sum : ∃ e, index + offset = u64 (index + offset) + 2 ^ 64 * e ∧ e ≤ 1 := ⟨(index + offset) / 2 ^ 64, (Nat.mod_add_div _ _).symm, by omega⟩
  obtain ⟨e, sum, once⟩ := sum
  rw [is]
  generalize u64 (index + offset) = x at *
  -- the rest up to the next multiple, which is `2 ^ 64` when the addition wraps
  have rest : ∃ d, alignWord 64 x (2 ^ k) = (x + d) % 2 ^ 64 ∧ d < 2 ^ k ∧ 2 ^ k ∣ x + d := by
    by_cases room : x + (2 ^ k - 1) < 2 ^ 64
    · have low := le_alignWord le.le room
      have high := @alignWord_lt 64 k x le.le
      have below : alignWord 64 x (2 ^ k) < 2 ^ 64 := by omega
      refine ⟨alignWord 64 x (2 ^ k) - x, ?_, by omega, ?_⟩
      · rw [Nat.add_sub_of_le low, Nat.mod_eq_of_lt below]
      · rw [Nat.add_sub_of_le low]
        exact dvd_alignWord le.le
    · refine ⟨2 ^ 64 - x, ?_, by omega, ?_⟩
      · rw [alignWord_wrap le.le wordLt (by omega), Nat.add_sub_of_le wordLt.le]
        rfl
      · rw [Nat.add_sub_of_le wordLt.le]
        exact ⟨q, whole⟩
  obtain ⟨d, rounded, less, unit⟩ := rest
  refine ⟨d, ?_, less, ?_⟩
  · rw [rounded, u64Sub]
    omega
  · have again : index + d + offset = x + d + 2 ^ k * (q * e) := by
      rw [← Nat.mul_assoc, ← whole]
      omega
    rw [again]
    exact Nat.dvd_add unit (Nat.dvd_mul_right _ _)

/-- An aligned number that is not below `index` is not below the rounded one. -/
theorem align_least {index offset unit d j : Nat} (less : d < unit) (aligned : unit ∣ index + d + offset) (above : index ≤ j) (other : unit ∣ j + offset) :
    index + d ≤ j := by
  by_contra between
  obtain ⟨q, is⟩ := aligned
  obtain ⟨r, is'⟩ := other
  have lt : unit * r < unit * q := by omega
  have next : unit * (r + 1) ≤ unit * q := Nat.mul_le_mul_left _ (Nat.succ_le_of_lt (Nat.lt_of_mul_lt_mul_left lt))
  rw [Nat.mul_succ] at next
  omega

section Area

variable {ws : List Word} {size nr k offset : Nat}

theorem zeroAreaLoop_eq (fits : Addressable ws) (room : size ≤ 64 * ws.length) (pos : 0 < nr) (int : nr < 2 ^ 32) (word : offset < 2 ^ 64)
    (le : k < 64) {fuel start : Nat} (enough : size < fuel + start) (inside : start ≤ size) :
    ∃ r, zeroAreaLoop ws size nr (2 ^ k - 1) offset fuel start = some r ∧
      (IsLeast {j | IsArea (bit ws) size start nr (2 ^ k) offset j} r ∨ (size < r ∧ ∀ j, ¬ IsArea (bit ws) size start nr (2 ^ k) offset j)) := by
  have small := fits.bits
  induction fuel generalizing start with
  | zero => omega
  | succ fuel ih =>
      obtain ⟨upper, lower, -, skipped⟩ := findNext_spec (bit ws) false size start
      have lower := lower inside
      have half : 2 ^ k ≤ 2 ^ 63 := Nat.pow_le_pow_right (by decide) (by omega)
      obtain ⟨d, rounded, less, aligned⟩ := @align_offset (findNext (bit ws) false size start) offset k (by omega) word le
      have zero := @findNextZeroBit_eq ws size start fits room
      rw [BitScan.findNextZeroBit] at zero
      rw [zeroAreaLoop, zero]
      simp only [Option.bind_eq_bind, Option.bind_some, rounded]
      generalize findNext (bit ws) false size start = first at *
      rw [u64_of_lt (by omega)]
      -- an area starts with a clear bit, so none is before the rounded number
      have least {j : Nat} (area : IsArea (bit ws) size start nr (2 ^ k) offset j) : first + d ≤ j := by
        obtain ⟨low, unit, high, clear⟩ := area
        refine align_least less aligned ?_ unit
        by_contra before
        have set := skipped j low (by omega)
        rw [clear j le_rfl (by omega)] at set
        exact absurd set (by decide)
      by_cases full : size < first + d + nr
      · rw [if_pos full]
        refine ⟨_, rfl, .inr ⟨full, fun j area => ?_⟩⟩
        have := least area
        have := area.2.2.1
        omega
      · rw [if_neg full, findNextBit_eq fits (by omega), Option.bind_some, BitScan.findNextBit]
        obtain ⟨upper', lower', found, before⟩ := findNext_spec (bit ws) true (first + d + nr) (first + d)
        have lower' := lower' (by omega)
        generalize findNext (bit ws) true (first + d + nr) (first + d) = i at *
        by_cases obstacle : i < first + d + nr
        · rw [if_pos obstacle, u64_of_lt (by omega)]
          obtain ⟨r, run, result⟩ := @ih (i + 1) (by omega) (by omega)
          -- the obstacle is inside every area that starts before it
          have same (j : Nat) : IsArea (bit ws) size (i + 1) nr (2 ^ k) offset j ↔ IsArea (bit ws) size start nr (2 ^ k) offset j := by
            constructor
            · rintro ⟨low, unit, high, clear⟩
              exact ⟨by omega, unit, high, clear⟩
            · intro area
              have above := least area
              obtain ⟨low, unit, high, clear⟩ := area
              refine ⟨?_, unit, high, clear⟩
              by_contra early
              have set := found obstacle
              rw [clear i (by omega) (by omega)] at set
              exact absurd set (by decide)
          simp only [same] at result
          exact ⟨r, run, result⟩
        · rw [if_neg obstacle]
          refine ⟨_, rfl, .inl ⟨⟨by omega, aligned, by omega, fun j low high => before j low (by omega)⟩, fun j area => least area⟩⟩

theorem zeroArea_eq (fits : Addressable ws) (room : size ≤ 64 * ws.length) (pos : 0 < nr) (int : nr < 2 ^ 32) (word : offset < 2 ^ 64) (le : k < 64)
    {start : Nat} (inside : start ≤ size) :
    ∃ r, bitmapFindNextZeroAreaOff ws size start nr (2 ^ k - 1) offset = some r ∧
      (IsLeast {j | IsArea (bit ws) size start nr (2 ^ k) offset j} r ∨ (size < r ∧ ∀ j, ¬ IsArea (bit ws) size start nr (2 ^ k) offset j)) :=
  zeroAreaLoop_eq fits room pos int word le (by omega) inside

end Area

end Miracle.Bitmap
