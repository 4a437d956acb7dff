import Miracle.Bitmap.Words
import Miracle.Lib.CountLoop

/-! # Arrays of half words

`bitmap_from_arr32` and `bitmap_to_arr32` copy between a bitmap and an array of `u32`.  Both loops
go through the halves of a word in one round, and the last round has one half or two.
-/

namespace Miracle.Bitmap

open CountLoop

abbrev HalfWord := BitVec 32

/-- `DIV_ROUND_UP(nbits, 32)`. -/
def halfwords (nbits : Nat) : Nat := u32 (nbits + 31) / 32

/-- `for (i = 0; i < halfwords; i++) { low(i); if (++i < halfwords) high(i); }`, from `i` on. -/
def halvesLoop {σ : Type} (n : Nat) (low high : Nat → σ → Option σ) (i : Nat) (s : σ) : Option σ :=
  if i < n then do
    let s ← low i s
    let s ← if i + 1 < n then high (i + 1) s else some s
    halvesLoop n low high (i + 2) s
  else some s
termination_by n - i

def storeHalf (buf : List HalfWord) (k : Nat) (w : HalfWord) : Option (List HalfWord) :=
  if k < buf.length then some (buf.set k w) else none

/-- `bitmap[i/2] = (u64) buf[i]`. -/
def fromLow (buf : List HalfWord) (i : Nat) (bitmap : List Word) : Option (List Word) := do
  let w ← buf[i]?
  store bitmap (i / 2) (w.setWidth 64)

/-- `bitmap[i/2] |= ((u64) buf[i]) << 32`. -/
def fromHigh (buf : List HalfWord) (i : Nat) (bitmap : List Word) : Option (List Word) := do
  let w ← buf[i]?
  let old ← bitmap[i / 2]?
  store bitmap (i / 2) (old ||| w.setWidth 64 <<< 32)

def bitmapFromArr32 (bitmap : List Word) (buf : List HalfWord) (nbits : Nat) : Option (List Word) := do
  let bitmap ← halvesLoop (halfwords nbits) (fromLow buf) (fromHigh buf) 0 bitmap
  if nbits % 64 ≠ 0 then do
    let w ← bitmap[(halfwords nbits - 1) / 2]?
    store bitmap ((halfwords nbits - 1) / 2) (w &&& lastWordMask nbits)
  else some bitmap

/-- `buf[i] = (u32) (bitmap[i/2] & UINT_MAX)`. -/
def toLow (bitmap : List Word) (i : Nat) (buf : List HalfWord) : Option (List HalfWord) := do
  let w ← bitmap[i / 2]?
  storeHalf buf i ((w &&& 0xffffffff).setWidth 32)

/-- `buf[i] = (u32) (bitmap[i/2] >> 32)`. -/
def toHigh (bitmap : List Word) (i : Nat) (buf : List HalfWord) : Option (List HalfWord) := do
  let w ← bitmap[i / 2]?
  storeHalf buf i ((w >>> 32).setWidth 32)

/-- `UINT_MAX >> ((-nbits) & 31)`. -/
def lastHalfMask (nbits : Nat) : HalfWord := BitVec.allOnes 32 >>> ((2 ^ 32 - nbits) % 32)

def bitmapToArr32 (buf : List HalfWord) (bitmap : List Word) (nbits : Nat) : Option (List HalfWord) := do
  let buf ← halvesLoop (halfwords nbits) (toLow bitmap) (toHigh bitmap) 0 buf
  if nbits % 64 ≠ 0 then do
    let w ← buf[halfwords nbits - 1]?
    storeHalf buf (halfwords nbits - 1) (w &&& lastHalfMask nbits)
  else some buf

/-! ## The loop over halves -/

/-- One half after the other. -/
theorem halvesLoop_eq {σ : Type} (n : Nat) (low high : Nat → σ → Option σ) (j : Nat) (s : σ) :
    (countUp (fun k => if k % 2 = 0 then low k else high k) (min (2 * j) n) s).bind (halvesLoop n low high (2 * j)) =
      countUp (fun k => if k % 2 = 0 then low k else high k) n s := by
  generalize bodyIs : (fun k => if k % 2 = 0 then low k else high k) = body
  by_cases more : 2 * j < n
  · have even : body (2 * j) = low (2 * j) := by
      rw [← bodyIs]
      exact if_pos (by omega)
    have odd : body (2 * j + 1) = high (2 * j + 1) := by
      rw [← bodyIs]
      exact if_neg (by omega)
    have rest := halvesLoop_eq n low high (j + 1) s
    rw [bodyIs] at rest
    rw [← rest, min_eq_left more.le]
    by_cases both : 2 * j + 1 < n
    · have two : min (2 * (j + 1)) n = 2 * j + 1 + 1 := by omega
      rw [two, countUp, countUp, Option.bind_assoc, Option.bind_assoc]
      refine Option.bind_congr fun t _ => ?_
      rw [halvesLoop, if_pos more, even, odd]
      simp only [if_pos both]
      rfl
    · have one : min (2 * (j + 1)) n = 2 * j + 1 := by omega
      rw [one, countUp, Option.bind_assoc]
      refine Option.bind_congr fun t _ => ?_
      rw [halvesLoop, if_pos more, even]
      simp only [if_neg both]
      rfl
  · rw [min_eq_right (Nat.not_lt.mp more)]
    refine (Option.bind_congr fun t _ => ?_).trans (Option.bind_fun_some _)
    rw [halvesLoop, if_neg more]
termination_by n - 2 * j

/-! ## Bits of half words -/

/-- Bit `i` of an array of half words. -/
def bit32 (buf : List HalfWord) (i : Nat) : Bool := (buf.getD (i / 32) 0).getLsbD (i % 32)

theorem entry32 {buf : List HalfWord} {k : Nat} (inside : k < buf.length) : buf[k]? = some (buf.getD k 0) := by
  rw [List.getElem?_eq_getElem inside, List.getD_eq_getElem _ _ inside]

theorem bit_set {ws : List Word} {k : Nat} (inside : k < ws.length) (w : Word) (i : Nat) :
    bit (ws.set k w) i = if i / 64 = k then w.getLsbD (i % 64) else bit ws i := by
  obtain ⟨-, words⟩ := store_eq inside w
  rw [bit, words]
  split <;> rfl

theorem bit32_set {buf : List HalfWord} {k : Nat} (inside : k < buf.length) (w : HalfWord) (i : Nat) :
    bit32 (buf.set k w) i = if i / 32 = k then w.getLsbD (i % 32) else bit32 buf i := by
  rw [bit32, List.getD_eq_getElem?_getD]
  by_cases here : i / 32 = k
  · rw [if_pos here, here, List.getElem?_set_self inside]
    rfl
  · rw [if_neg here, List.getElem?_set_ne (Ne.symm here), bit32, List.getD_eq_getElem?_getD]

/-! ## From half words -/

theorem store_some {ws ws' : List Word} {k : Nat} {w : Word} (stored : store ws k w = some ws') : k < ws.length ∧ ws' = ws.set k w := by
  rw [store] at stored
  split at stored
  · cases stored
    exact ⟨‹_›, rfl⟩
  · cases stored

theorem storeHalf_some {buf buf' : List HalfWord} {k : Nat} {w : HalfWord} (stored : storeHalf buf k w = some buf') :
    k < buf.length ∧ buf' = buf.set k w := by
  rw [storeHalf] at stored
  split at stored
  · cases stored
    exact ⟨‹_›, rfl⟩
  · cases stored

/-- A round of `bitmap_from_arr32`. -/
def fromHalf (buf : List HalfWord) (k : Nat) : List Word → Option (List Word) := if k % 2 = 0 then fromLow buf k else fromHigh buf k

theorem fromLoop_eq (n : Nat) (buf : List HalfWord) (bitmap : List Word) :
    halvesLoop n (fromLow buf) (fromHigh buf) 0 bitmap = countUp (fromHalf buf) n bitmap := by
  have eq := halvesLoop_eq n (fromLow buf) (fromHigh buf) 0 bitmap
  rw [Nat.mul_zero, Nat.zero_min] at eq
  exact eq

theorem fromHalf_some {buf : List HalfWord} {k : Nat} {ws ws' : List Word} (step : fromHalf buf k ws = some ws') :
    k < buf.length ∧ k / 2 < ws.length ∧ ws'.length = ws.length := by
  rw [fromHalf] at step
  split at step
  · obtain ⟨w, read, stored⟩ := Option.bind_eq_some_iff.mp step
    obtain ⟨inside, rfl⟩ := store_some stored
    exact ⟨(List.getElem?_eq_some_iff.mp read).1, inside, List.length_set⟩
  · obtain ⟨w, read, step⟩ := Option.bind_eq_some_iff.mp step
    obtain ⟨old, -, stored⟩ := Option.bind_eq_some_iff.mp step
    obtain ⟨inside, rfl⟩ := store_some stored
    exact ⟨(List.getElem?_eq_some_iff.mp read).1, inside, List.length_set⟩

/-- The bitmap after `k` half words. -/
structure HalvesIn (buf : List HalfWord) (bitmap : List Word) (k : Nat) (ws : List Word) : Prop where
  length : ws.length = bitmap.length
  bits : ∀ i, bit ws i = if i < 64 * ((k + 1) / 2) then decide (i < 32 * k) && bit32 buf i else bit bitmap i

theorem fromHalf_step {buf : List HalfWord} {bitmap ws : List Word} {k : Nat} (filled : HalvesIn buf bitmap k ws) (inside : k < buf.length)
    (room : k / 2 < bitmap.length) : ∃ ws', fromHalf buf k ws = some ws' ∧ HalvesIn buf bitmap (k + 1) ws' := by
  have here : k / 2 < ws.length := by rw [filled.length]; exact room
  have half (i : Nat) (at_ : i / 32 = k) : bit32 buf i = (buf.getD k 0).getLsbD (i % 32) := by rw [bit32, at_]
  by_cases even : k % 2 = 0
  · refine ⟨ws.set (k / 2) ((buf.getD k 0).setWidth 64), ?_, List.length_set.trans filled.length, fun i => ?_⟩
    · rw [fromHalf, if_pos even, fromLow, entry32 inside]
      exact (store_eq here _).1
    · rw [bit_set here, filled.bits]
      by_cases word : i / 64 = k / 2
      · rw [if_pos word, if_pos (by omega), BitVec.getLsbD_setWidth, decide_eq_true (Nat.mod_lt i (by decide)), Bool.true_and]
        by_cases low : i < 32 * (k + 1)
        · have place : i % 64 = i % 32 := by omega
          rw [decide_eq_true low, Bool.true_and, half i (by omega), place]
        · rw [decide_eq_false low, Bool.false_and]
          exact BitVec.getLsbD_of_ge _ _ (by omega)
      · rw [if_neg word]
        by_cases before : i < 64 * ((k + 1) / 2)
        · rw [if_pos before, if_pos (by omega), decide_eq_true (by omega : i < 32 * k), decide_eq_true (by omega : i < 32 * (k + 1))]
        · rw [if_neg before, if_neg (by omega)]
  · have read : ws[k / 2]? = some (ws.getD (k / 2) 0) := entry here
    refine ⟨ws.set (k / 2) (ws.getD (k / 2) 0 ||| (buf.getD k 0).setWidth 64 <<< 32), ?_, List.length_set.trans filled.length, fun i => ?_⟩
    · rw [fromHalf, if_neg even, fromHigh, entry32 inside, read]
      exact (store_eq here _).1
    · rw [bit_set here, filled.bits]
      by_cases word : i / 64 = k / 2
      · have old : (ws.getD (k / 2) 0).getLsbD (i % 64) = (decide (i < 32 * k) && bit32 buf i) := by
          rw [← word]
          exact (filled.bits i).trans (if_pos (by omega))
        have inWord : i % 64 < 64 := Nat.mod_lt _ (by decide)
        rw [if_pos word, if_pos (by omega), BitVec.getLsbD_or, old, BitVec.getLsbD_shiftLeft, BitVec.getLsbD_setWidth, decide_eq_true inWord,
          Bool.true_and]
        by_cases low : i < 32 * k
        · rw [decide_eq_true low, decide_eq_true (by omega : i < 32 * (k + 1)), decide_eq_true (by omega : i % 64 < 32)]
          simp
        · have place : i % 64 - 32 = i % 32 := by omega
          rw [decide_eq_false low, decide_eq_true (by omega : i < 32 * (k + 1)), decide_eq_false (by omega : ¬ i % 64 < 32),
            decide_eq_true (by omega : i % 64 - 32 < 64), half i (by omega), place]
          simp
      · rw [if_neg word]
        by_cases before : i < 64 * ((k + 1) / 2)
        · rw [if_pos before, if_pos (by omega), decide_eq_true (by omega : i < 32 * k), decide_eq_true (by omega : i < 32 * (k + 1))]
        · rw [if_neg before, if_neg (by omega)]

/-! ## To half words -/

/-- A round of `bitmap_to_arr32`. -/
def toHalf (bitmap : List Word) (k : Nat) : List HalfWord → Option (List HalfWord) := if k % 2 = 0 then toLow bitmap k else toHigh bitmap k

theorem toLoop_eq (n : Nat) (bitmap : List Word) (buf : List HalfWord) :
    halvesLoop n (toLow bitmap) (toHigh bitmap) 0 buf = countUp (toHalf bitmap) n buf := by
  have eq := halvesLoop_eq n (toLow bitmap) (toHigh bitmap) 0 buf
  rw [Nat.mul_zero, Nat.zero_min] at eq
  exact eq

theorem toHalf_some {bitmap : List Word} {k : Nat} {buf buf' : List HalfWord} (step : toHalf bitmap k buf = some buf') :
    k < buf.length ∧ k / 2 < bitmap.length ∧ buf'.length = buf.length := by
  rw [toHalf] at step
  split at step
  all_goals
    obtain ⟨w, read, stored⟩ := Option.bind_eq_some_iff.mp step
    obtain ⟨inside, rfl⟩ := storeHalf_some stored
    exact ⟨inside, (List.getElem?_eq_some_iff.mp read).1, List.length_set⟩

/-- The half words after `k` of them. -/
structure HalvesOut (bitmap : List Word) (buf : List HalfWord) (k : Nat) (hs : List HalfWord) : Prop where
  length : hs.length = buf.length
  bits : ∀ i, bit32 hs i = if i < 32 * k then bit bitmap i else bit32 buf i

theorem toHalf_step {bitmap : List Word} {buf hs : List HalfWord} {k : Nat} (emptied : HalvesOut bitmap buf k hs) (inside : k < buf.length)
    (room : k / 2 < bitmap.length) : ∃ hs', toHalf bitmap k hs = some hs' ∧ HalvesOut bitmap buf (k + 1) hs' := by
  have here : k < hs.length := by rw [emptied.length]; exact inside
  have read : bitmap[k / 2]? = some (bitmap.getD (k / 2) 0) := entry room
  -- the half of the word, from its bits
  have done {w : HalfWord} (is : ∀ i, i / 32 = k → w.getLsbD (i % 32) = bit bitmap i) : HalvesOut bitmap buf (k + 1) (hs.set k w) := by
    refine ⟨List.length_set.trans emptied.length, fun i => ?_⟩
    rw [bit32_set here, emptied.bits]
    by_cases at_ : i / 32 = k
    · rw [if_pos at_, if_pos (by omega), is i at_]
    · rw [if_neg at_]
      by_cases before : i < 32 * k
      · rw [if_pos before, if_pos (by omega)]
      · rw [if_neg before, if_neg (by omega)]
  have stored (w : HalfWord) : storeHalf hs k w = some (hs.set k w) := if_pos here
  by_cases even : k % 2 = 0
  · refine ⟨_, ?_, done (w := (bitmap.getD (k / 2) 0 &&& 0xffffffff).setWidth 32) fun i at_ => ?_⟩
    · rw [toHalf, if_pos even, toLow, read]
      exact stored _
    · have word : i / 64 = k / 2 := by omega
      have place : i % 64 = i % 32 := by omega
      have low : i % 32 < 32 := Nat.mod_lt _ (by decide)
      have mask : (0xffffffff : Word) = (BitVec.allOnes 32).setWidth 64 := by decide
      rw [mask, BitVec.getLsbD_setWidth, BitVec.getLsbD_and, BitVec.getLsbD_setWidth, BitVec.getLsbD_allOnes, decide_eq_true low,
        decide_eq_true (by omega : i % 32 < 64), bit, word, place]
      simp
  · refine ⟨_, ?_, done (w := (bitmap.getD (k / 2) 0 >>> 32).setWidth 32) fun i at_ => ?_⟩
    · rw [toHalf, if_neg even, toHigh, read]
      exact stored _
    · have word : i / 64 = k / 2 := by omega
      have place : i % 64 = 32 + i % 32 := by omega
      have low : i % 32 < 32 := Nat.mod_lt _ (by decide)
      rw [BitVec.getLsbD_setWidth, BitVec.getLsbD_ushiftRight, decide_eq_true low, Bool.true_and, bit, word, place]

/-! ## The conversions -/

section

variable {nbits : Nat} (pos : 0 < nbits) (int : nbits < 2 ^ 31)

include int in
theorem halfwords_eq : halfwords nbits = (nbits + 31) / 32 := by
  rw [halfwords, u32_of_lt (by omega)]

include pos int

/-- The words that are needed are enough, and the tail of the last one is cleared. -/
theorem bitmapFromArr32_eq {bitmap : List Word} {buf : List HalfWord} (room : bitsToLongs nbits ≤ bitmap.length) (source : (nbits + 31) / 32 ≤ buf.length) :
    ∃ bitmap', bitmapFromArr32 bitmap buf nbits = some bitmap' ∧ bitmap'.length = bitmap.length ∧
      ∀ i, bit bitmap' i = if i < 64 * bitsToLongs nbits then decide (i < nbits) && bit32 buf i else bit bitmap i := by
  have count := halfwords_eq int
  unfold bitsToLongs at room ⊢
  obtain ⟨ws, run, filled⟩ := countUp_rule (n := (nbits + 31) / 32) (HalvesIn buf bitmap)
    ⟨rfl, fun i => (if_neg (Nat.not_lt_zero i)).symm⟩
    fun k ws less filled => fromHalf_step filled (by omega) (by omega)
  have words : 64 * (((nbits + 31) / 32 + 1) / 2) = 64 * ((nbits + 63) / 64) := by omega
  unfold bitmapFromArr32
  rw [fromLoop_eq, count, run]
  simp only [Option.bind_eq_bind, Option.bind_some]
  by_cases tail : nbits % 64 = 0
  · refine ⟨ws, if_neg (not_not.mpr tail), filled.length, fun i => ?_⟩
    rw [filled.bits, words]
    split
    · have all : (i < 32 * ((nbits + 31) / 32)) = (i < nbits) := propext (by omega)
      simp only [all]
    · rfl
  · have last : ((nbits + 31) / 32 - 1) / 2 = nbits / 64 := by omega
    have inside : nbits / 64 < ws.length := by
      rw [filled.length]
      omega
    rw [if_pos tail, last, entry inside, Option.bind_some]
    refine ⟨_, (store_eq inside _).1, List.length_set.trans filled.length, fun i => ?_⟩
    have old := filled.bits i
    rw [words] at old
    rw [bit_set inside]
    by_cases here : i / 64 = nbits / 64
    · have mask := getLsbD_lastWordMask (t := i % 64) (by omega : 0 < nbits % 64) (by omega) (by omega : nbits < 2 ^ 32) (Nat.mod_mod _ _).symm
      have same : (i % 64 < nbits % 64) = (i < nbits) := propext (by omega)
      have value : (ws.getD (nbits / 64) 0).getLsbD (i % 64) = bit ws i := by rw [bit, here]
      rw [if_pos here, BitVec.getLsbD_and, mask, value, old, if_pos (by omega), if_pos (by omega)]
      simp only [same]
      by_cases below : i < nbits
      · rw [decide_eq_true below, decide_eq_true (by omega : i < 32 * ((nbits + 31) / 32)), Bool.and_true]
      · rw [decide_eq_false below, Bool.and_false, Bool.false_and]
    · rw [if_neg here, old]
      by_cases before : i < 64 * ((nbits + 63) / 64)
      · rw [if_pos before, if_pos before, decide_eq_true (by omega : i < nbits), decide_eq_true (by omega : i < 32 * ((nbits + 31) / 32))]
      · rw [if_neg before, if_neg before]

/-- The half words that are needed are enough, and the tail of the last one is cleared. -/
theorem bitmapToArr32_eq {buf : List HalfWord} {bitmap : List Word} (room : (nbits + 31) / 32 ≤ buf.length) (source : bitsToLongs nbits ≤ bitmap.length) :
    ∃ buf', bitmapToArr32 buf bitmap nbits = some buf' ∧ buf'.length = buf.length ∧
      ∀ i, bit32 buf' i = if i < 32 * ((nbits + 31) / 32) then decide (i < nbits) && bit bitmap i else bit32 buf i := by
  have count := halfwords_eq int
  unfold bitsToLongs at source
  obtain ⟨hs, run, emptied⟩ := countUp_rule (n := (nbits + 31) / 32) (HalvesOut bitmap buf)
    ⟨rfl, fun i => (if_neg (Nat.not_lt_zero i)).symm⟩
    fun k hs less emptied => toHalf_step emptied (by omega) (by omega)
  unfold bitmapToArr32
  rw [toLoop_eq, count, run]
  simp only [Option.bind_eq_bind, Option.bind_some]
  by_cases tail : nbits % 64 = 0
  · refine ⟨hs, if_neg (not_not.mpr tail), emptied.length, fun i => ?_⟩
    rw [emptied.bits]
    split
    · rw [decide_eq_true (by omega : i < nbits), Bool.true_and]
    · rfl
  · have inside : (nbits + 31) / 32 - 1 < hs.length := by
      rw [emptied.length]
      omega
    rw [if_pos tail, entry32 inside, Option.bind_some]
    refine ⟨hs.set ((nbits + 31) / 32 - 1) _, if_pos inside, List.length_set.trans emptied.length, fun i => ?_⟩
    rw [bit32_set inside, emptied.bits]
    by_cases here : i / 32 = (nbits + 31) / 32 - 1
    · have value : (hs.getD ((nbits + 31) / 32 - 1) 0).getLsbD (i % 32) = bit bitmap i := by
        rw [← here]
        exact (emptied.bits i).trans (if_pos (by omega))
      have mask : (lastHalfMask nbits).getLsbD (i % 32) = decide (i < nbits) := by
        rw [lastHalfMask, BitVec.getLsbD_ushiftRight, BitVec.getLsbD_allOnes]
        exact decide_eq_decide.mpr (by omega)
      rw [if_pos here, BitVec.getLsbD_and, value, mask, if_pos (by omega), Bool.and_comm]
    · rw [if_neg here]
      by_cases before : i < 32 * ((nbits + 31) / 32)
      · rw [if_pos before, if_pos before, decide_eq_true (by omega : i < nbits), Bool.true_and]
      · rw [if_neg before, if_neg before]

/-! ## The words that are needed -/

/-- Shorter arrays are left. -/
theorem bitmapFromArr32_isSome (bitmap : List Word) (buf : List HalfWord) :
    (bitmapFromArr32 bitmap buf nbits).isSome ↔ bitsToLongs nbits ≤ bitmap.length ∧ (nbits + 31) / 32 ≤ buf.length := by
  constructor
  · intro done
    obtain ⟨r, run⟩ := Option.isSome_iff_exists.mp done
    unfold bitmapFromArr32 at run
    rw [fromLoop_eq, halfwords_eq int] at run
    obtain ⟨ws, loop, -⟩ := Option.bind_eq_some_iff.mp run
    obtain ⟨t, t', before, step⟩ := countUp_round loop (by omega : (nbits + 31) / 32 - 1 < (nbits + 31) / 32)
    have kept := countUp_kept (fun ws => ws.length = bitmap.length) (fun k ws ws' step same => (fromHalf_some step).2.2.trans same) before rfl
    obtain ⟨inside, inside', -⟩ := fromHalf_some step
    rw [kept] at inside'
    unfold bitsToLongs
    omega
  · rintro ⟨room, source⟩
    obtain ⟨bitmap', run, -⟩ := bitmapFromArr32_eq pos int room source
    rw [run]
    rfl

theorem bitmapToArr32_isSome (buf : List HalfWord) (bitmap : List Word) :
    (bitmapToArr32 buf bitmap nbits).isSome ↔ (nbits + 31) / 32 ≤ buf.length ∧ bitsToLongs nbits ≤ bitmap.length := by
  constructor
  · intro done
    obtain ⟨r, run⟩ := Option.isSome_iff_exists.mp done
    unfold bitmapToArr32 at run
    rw [toLoop_eq, halfwords_eq int] at run
    obtain ⟨hs, loop, -⟩ := Option.bind_eq_some_iff.mp run
    obtain ⟨t, t', before, step⟩ := countUp_round loop (by omega : (nbits + 31) / 32 - 1 < (nbits + 31) / 32)
    have kept := countUp_kept (fun hs => hs.length = buf.length) (fun k hs hs' step same => (toHalf_some step).2.2.trans same) before rfl
    obtain ⟨inside, inside', -⟩ := toHalf_some step
    rw [kept] at inside
    unfold bitsToLongs
    omega
  · rintro ⟨room, source⟩
    obtain ⟨buf', run, -⟩ := bitmapToArr32_eq pos int room source
    rw [run]
    rfl

end

/-! ## Round trips -/

/-- Both conversions use exactly the words that hold the bits, and one after the other gives the bits back. -/
theorem arr32_round_trip {nbits : Nat} (pos : 0 < nbits) (int : nbits < 2 ^ 31) (bitmap : List Word) (buf : List HalfWord) :
    ((bitmapFromArr32 bitmap buf nbits).isSome ↔ bitsToLongs nbits ≤ bitmap.length ∧ (nbits + 31) / 32 ≤ buf.length) ∧
    ((bitmapToArr32 buf bitmap nbits).isSome ↔ (nbits + 31) / 32 ≤ buf.length ∧ bitsToLongs nbits ≤ bitmap.length) ∧
    (∀ bitmap', bitmapFromArr32 bitmap buf nbits = some bitmap' →
      bitmap'.length = bitmap.length ∧ (∀ i, 64 * bitsToLongs nbits ≤ i → bit bitmap' i = bit bitmap i) ∧
      ∀ buf₂ : List HalfWord, (nbits + 31) / 32 ≤ buf₂.length → ∃ buf', bitmapToArr32 buf₂ bitmap' nbits = some buf' ∧ buf'.length = buf₂.length ∧
        ∀ i, bit32 buf' i = if i < 32 * ((nbits + 31) / 32) then decide (i < nbits) && bit32 buf i else bit32 buf₂ i) ∧
    (∀ buf', bitmapToArr32 buf bitmap nbits = some buf' →
      buf'.length = buf.length ∧ (∀ i, 32 * ((nbits + 31) / 32) ≤ i → bit32 buf' i = bit32 buf i) ∧
      ∀ bitmap₂ : List Word, bitsToLongs nbits ≤ bitmap₂.length → ∃ bitmap', bitmapFromArr32 bitmap₂ buf' nbits = some bitmap' ∧
        bitmap'.length = bitmap₂.length ∧
        ∀ i, bit bitmap' i = if i < 64 * bitsToLongs nbits then decide (i < nbits) && bit bitmap i else bit bitmap₂ i) := by
  refine ⟨bitmapFromArr32_isSome pos int bitmap buf, bitmapToArr32_isSome pos int buf bitmap, fun bitmap' run => ?_, fun buf' run => ?_⟩
  · obtain ⟨room, source⟩ := (bitmapFromArr32_isSome pos int bitmap buf).mp (by rw [run]; rfl)
    obtain ⟨_, run', length, bits⟩ := bitmapFromArr32_eq pos int room source
    cases run.symm.trans run'
    refine ⟨length, fun i beyond => (bits i).trans (if_neg (Nat.not_lt.mpr beyond)), fun buf₂ room₂ => ?_⟩
    obtain ⟨buf', back, length', bits'⟩ := bitmapToArr32_eq pos int room₂ (length.symm ▸ room)
    refine ⟨buf', back, length', fun i => ?_⟩
    rw [bits' i, bits i]
    by_cases below : i < nbits
    · rw [decide_eq_true below, if_pos (lt_bitsToLongs below)]
      rfl
    · rw [decide_eq_false below, Bool.false_and, Bool.false_and]
  · obtain ⟨room, source⟩ := (bitmapToArr32_isSome pos int buf bitmap).mp (by rw [run]; rfl)
    obtain ⟨_, run', length, bits⟩ := bitmapToArr32_eq pos int room source
    cases run.symm.trans run'
    refine ⟨length, fun i beyond => (bits i).trans (if_neg (Nat.not_lt.mpr beyond)), fun bitmap₂ room₂ => ?_⟩
    obtain ⟨bitmap', back, length', bits'⟩ := bitmapFromArr32_eq pos int room₂ (length.symm ▸ room)
    refine ⟨bitmap', back, length', fun i => ?_⟩
    rw [bits' i, bits i]
    by_cases below : i < nbits
    · rw [decide_eq_true below, if_pos (by omega : i < 32 * ((nbits + 31) / 32))]
      rfl
    · rw [decide_eq_false below, Bool.false_and, Bool.false_and]

theorem arr32_odd : (bitmapFromArr32 [0] [0xffffffff, 0xffffffff] 33).isSome :=
  (@arr32_round_trip 33 (by decide) (by decide) [0] [0xffffffff, 0xffffffff]).1.mpr (by decide)

end Miracle.Bitmap
