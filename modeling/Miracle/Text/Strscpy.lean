import Miracle.Lib.Word
import Miracle.Lib.ZeroByte

/-! # Copying a string word by word

`strscpy` with unaligned accesses and a little-endian machine.  Source and destination do not
overlap, and both are counted from their pointers.  The word loop keeps the places of the words
that it reads.
-/

namespace Miracle.Text

open ZeroByte

def eTooBig : Int := -7

/-! ## Words at a time -/

def hasZero (a : Word) : Word := ((a - oneBits) &&& ~~~a) &&& highBits

def createZeroMask (bits : Word) : Word := ((bits - 1#64) &&& ~~~bits) >>> 7

def findZero (mask : Word) : Nat := fls mask.toNat >>> 3

/-- `read_word_at_a_time`. -/
def readWord (src : Nat → Byte) (at_ : Nat) : Word := ofBytes fun k => src (at_ + k)

def writeWord (dest : Nat → Byte) (at_ : Nat) (c : Word) : Nat → Byte := fun i =>
  if at_ ≤ i ∧ i < at_ + 8 then byte c (i - at_) else dest i

/-! ## The function -/

/-- The return value, the destination and the places of the words that were read. -/
structure Strscpy where
  ret : Int
  dest : Nat → Byte
  words : List Nat

/-- The state between the loops. -/
structure Copy where
  res : Nat
  count : Nat
  dest : Nat → Byte
  words : List Nat

/-- The loop over words, which returns or falls through. -/
def wordLoop (src : Nat → Byte) (max : Nat) (st : Copy) : Except Strscpy Copy :=
  if _more : 8 ≤ max then
    let c := readWord src st.res
    let words := st.words ++ [st.res]
    let data := hasZero c
    if data ≠ 0 then
      let data := createZeroMask data
      .error ⟨(st.res + findZero data : Nat), writeWord st.dest st.res (c &&& data), words⟩
    else wordLoop src (max - 8) ⟨st.res + 8, st.count - 8, writeWord st.dest st.res c, words⟩
  else .ok st
termination_by max

/-- The loop over bytes and what follows it. -/
def byteLoop (src : Nat → Byte) : (count res : Nat) → (Nat → Byte) → Int × (Nat → Byte)
  | 0, res, dest => (eTooBig, if res ≠ 0 then Function.update dest (res - 1) 0 else dest)
  | count + 1, res, dest =>
      let c := src res
      let dest := Function.update dest res c
      if c = 0 then (res, dest) else byteLoop src count (res + 1) dest

/-- How many bytes are copied by words. -/
def wordMax (pageShift srcAddr count : Nat) : Nat :=
  -- an unaligned source must not cross the end of its page
  if srcAddr &&& 7 ≠ 0 then min (2 ^ pageShift - (srcAddr &&& (2 ^ pageShift - 1))) count else count

def strscpy (pageShift srcAddr : Nat) (src dest : Nat → Byte) (count : Nat) : Strscpy :=
  if count = 0 then ⟨eTooBig, dest, []⟩
  else match wordLoop src (wordMax pageShift srcAddr count) ⟨0, count, dest, []⟩ with
    | .error done => done
    | .ok st =>
        let (ret, dest) := byteLoop src st.count st.res st.dest
        ⟨ret, dest, st.words⟩

/-! ## Words and bytes -/

theorem readWord_byte (src : Nat → Byte) (at_ : Nat) {k : Nat} (inside : k < 8) : byte (readWord src at_) k = src (at_ + k) :=
  byte_ofBytes _ inside

theorem hasZero_none {src : Nat → Byte} {at_ : Nat} (full : ∀ j < 8, src (at_ + j) ≠ 0) : hasZero (readWord src at_) = 0 :=
  zeroBits_none fun j below => by
    rw [readWord_byte _ _ below]
    exact full j below

section

variable {src : Nat → Byte} {at_ k : Nat} (inside : k < 8) (full : ∀ j < k, src (at_ + j) ≠ 0) (zero : src (at_ + k) = 0)

include inside full zero

theorem word_first : (∀ j < k, byte (readWord src at_) j ≠ 0) ∧ byte (readWord src at_) k = 0 := by
  refine ⟨fun j below => ?_, ?_⟩
  · rw [readWord_byte _ _ (by omega)]
    exact full j below
  · rw [readWord_byte _ _ inside]
    exact zero

theorem hasZero_some : hasZero (readWord src at_) ≠ 0 := by
  obtain ⟨full', zero'⟩ := word_first inside full zero
  obtain ⟨m, eq⟩ := zeroBits_first inside full' zero'
  intro none
  have value : (zeroBits (readWord src at_)).toNat = 0 := congrArg BitVec.toNat none
  rw [value] at eq
  exact absurd eq.symm (Nat.mul_pos (Nat.two_pow_pos _) (Nat.succ_pos _)).ne'

theorem mask_eq : (createZeroMask (hasZero (readWord src at_))).toNat = 2 ^ (8 * k) - 1 := by
  obtain ⟨full', zero'⟩ := word_first inside full zero
  exact byteMask_eq inside full' zero'

theorem findZero_eq : findZero (createZeroMask (hasZero (readWord src at_))) = k := by
  have all : ∀ k < 8, fls (2 ^ (8 * k) - 1) >>> 3 = k := by decide
  rw [findZero, mask_eq inside full zero]
  exact all k inside

end

/-! ## What is left behind -/

variable {src dest₀ : Nat → Byte} {n count₀ : Nat}

/-- A string of `n` bytes. -/
structure Ends (src : Nat → Byte) (n : Nat) : Prop where
  full : ∀ i < n, src i ≠ 0
  nul : src n = 0

/-- The result of copying a string of `n` bytes. -/
structure Copied (src dest₀ : Nat → Byte) (n count₀ : Nat) (ret : Int) (dest : Nat → Byte) : Prop where
  ret : ret = if n < count₀ then (n : Int) else eTooBig
  text : ∀ i < min n (count₀ - 1), dest i = src i
  nul : 0 < count₀ → dest (min n (count₀ - 1)) = 0
  beyond : ∀ i, count₀ ≤ i → dest i = dest₀ i

/-- The first `res` bytes have been copied, and the string goes on. -/
structure Copying (src dest₀ : Nat → Byte) (n count₀ res count : Nat) (dest : Nat → Byte) : Prop where
  total : res + count = count₀
  before : res ≤ n
  text : ∀ i < res, dest i = src i
  rest : ∀ i, res ≤ i → dest i = dest₀ i

theorem byteLoop_copied (ends : Ends src n) {res count : Nat} {dest : Nat → Byte} (copying : Copying src dest₀ n count₀ res count dest) :
    Copied src dest₀ n count₀ (byteLoop src count res dest).1 (byteLoop src count res dest).2 := by
  induction count generalizing res dest with
  | zero =>
      obtain ⟨total, before, text, rest⟩ := copying
      have all : res = count₀ := total
      have long : ¬ n < count₀ := by omega
      rw [byteLoop]
      by_cases some : res = 0
      · refine ⟨(if_neg long).symm, fun i below => by omega, fun pos => by omega, fun i beyond => ?_⟩
        rw [if_neg (not_not.mpr some)]
        exact rest i (by omega)
      · simp only [if_pos (some : res ≠ 0)]
        refine ⟨(if_neg long).symm, fun i below => ?_, fun _ => ?_, fun i beyond => ?_⟩
        · rw [Function.update_of_ne (by omega)]
          exact text i (by omega)
        · have last : min n (count₀ - 1) = res - 1 := by omega
          rw [last, Function.update_self]
        · rw [Function.update_of_ne (by omega)]
          exact rest i (by omega)
  | succ count ih =>
      obtain ⟨total, before, text, rest⟩ := copying
      rw [byteLoop]
      by_cases stop : src res = 0
      · have here : res = n := by
          by_contra other
          exact ends.full res (by omega) stop
        simp only [if_pos stop]
        refine ⟨?_, fun i below => ?_, fun _ => ?_, fun i beyond => ?_⟩
        · rw [if_pos (by omega), here]
        · rw [Function.update_of_ne (by omega)]
          exact text i (by omega)
        · have last : min n (count₀ - 1) = res := by omega
          rw [last, Function.update_self, stop]
        · rw [Function.update_of_ne (by omega)]
          exact rest i (by omega)
      · have more : res ≠ n := fun here => stop (here ▸ ends.nul)
        simp only [if_neg stop]
        refine ih ⟨by omega, by omega, fun i below => ?_, fun i after => ?_⟩
        · rcases Nat.eq_or_lt_of_le (Nat.le_of_lt_succ below) with rfl | earlier
          · exact Function.update_self ..
          · rw [Function.update_of_ne (by omega)]
            exact text i earlier
        · rw [Function.update_of_ne (by omega)]
          exact rest i (by omega)

/-! ## The loop over words -/

/-- The words that are read lie before the end of the string, before `count` and in one page each. -/
def Inside (pageShift srcAddr n count₀ : Nat) (words : List Nat) : Prop :=
  ∀ p ∈ words, p ≤ n ∧ p + 8 ≤ count₀ ∧ (srcAddr + p) / 2 ^ pageShift = (srcAddr + p + 7) / 2 ^ pageShift

/-- The next words do not cross the end of a page. -/
def Paged (pageShift srcAddr res max : Nat) : Prop :=
  ∀ p, res ≤ p → p + 8 ≤ res + max → (p - res) % 8 = 0 → (srcAddr + p) / 2 ^ pageShift = (srcAddr + p + 7) / 2 ^ pageShift

theorem writeWord_whole {dest : Nat → Byte} {res : Nat} (text : ∀ i < res, dest i = src i) {i : Nat} (below : i < res + 8) :
    writeWord dest res (readWord src res) i = src i := by
  unfold writeWord
  by_cases here : res ≤ i
  · rw [if_pos ⟨here, below⟩, readWord_byte _ _ (by omega), Nat.add_sub_cancel' here]
  · rw [if_neg fun both => here both.1]
    exact text i (Nat.not_le.mp here)

theorem wordLoop_copied (ends : Ends src n) {pageShift srcAddr max : Nat} {st : Copy} (copying : Copying src dest₀ n count₀ st.res st.count st.dest)
    (le : max ≤ st.count) (inside : Inside pageShift srcAddr n count₀ st.words) (paged : Paged pageShift srcAddr st.res max) :
    match wordLoop src max st with
    | .error done => Copied src dest₀ n count₀ done.ret done.dest ∧ Inside pageShift srcAddr n count₀ done.words
    | .ok st' => Copying src dest₀ n count₀ st'.res st'.count st'.dest ∧ Inside pageShift srcAddr n count₀ st'.words := by
  induction max using Nat.strong_induction_on generalizing st with
  | _ max ih =>
      obtain ⟨total, before, text, rest⟩ := copying
      rw [wordLoop]
      by_cases more : 8 ≤ max
      · have inside' : Inside pageShift srcAddr n count₀ (st.words ++ [st.res]) := by
          intro p member
          rcases List.mem_append.mp member with old | new
          · exact inside p old
          · obtain rfl := List.mem_singleton.mp new
            exact ⟨before, by omega, paged _ le_rfl (by omega) (by omega)⟩
        rw [dif_pos more]
        by_cases ending : n < st.res + 8
        · -- the string ends in this word
          have at_ : st.res + (n - st.res) = n := by omega
          have full : ∀ j < n - st.res, src (st.res + j) ≠ 0 := fun j below => ends.full _ (by omega)
          have zero : src (st.res + (n - st.res)) = 0 := at_.symm ▸ ends.nul
          have found := hasZero_some (by omega) full zero
          simp only [if_pos found]
          rw [findZero_eq (by omega) full zero, at_]
          have bytes (j : Nat) : byte (readWord src st.res &&& createZeroMask (hasZero (readWord src st.res))) j =
              if j < n - st.res then byte (readWord src st.res) j else 0 := byte_and_mask (mask_eq (by omega) full zero)
          refine ⟨⟨(if_pos (by omega)).symm, fun i below => ?_, fun _ => ?_, fun i beyond => ?_⟩, inside'⟩
          · unfold writeWord
            by_cases here : st.res ≤ i
            · rw [if_pos ⟨here, by omega⟩, bytes, if_pos (by omega), readWord_byte _ _ (by omega), Nat.add_sub_cancel' here]
            · rw [if_neg fun both => here both.1]
              exact text i (Nat.not_le.mp here)
          · have last : min n (count₀ - 1) = n := by omega
            unfold writeWord
            rw [last, if_pos ⟨before, by omega⟩, bytes, if_neg (Nat.lt_irrefl _)]
          · unfold writeWord
            rw [if_neg (by omega)]
            exact rest i (by omega)
        · have none : hasZero (readWord src st.res) = 0 := hasZero_none fun j below => ends.full _ (by omega)
          simp only [none, ne_eq, not_true_eq_false, if_false]
          have next : Copying src dest₀ n count₀ (st.res + 8) (st.count - 8) (writeWord st.dest st.res (readWord src st.res)) := by
            refine ⟨by omega, by omega, fun i below => writeWord_whole text below, fun i after => ?_⟩
            unfold writeWord
            rw [if_neg (by omega)]
            exact rest i (by omega)
          have paged' : Paged pageShift srcAddr (st.res + 8) (max - 8) := fun p after within step => paged p (by omega) (by omega) (by omega)
          have le' : max - 8 ≤ st.count - 8 := by omega
          exact @ih (max - 8) (by omega) ⟨st.res + 8, st.count - 8, writeWord st.dest st.res (readWord src st.res), st.words ++ [st.res]⟩ next le' inside' paged'
      · rw [dif_neg more]
        exact ⟨⟨total, before, text, rest⟩, inside⟩

/-! ## Pages -/

theorem wordMax_le (pageShift srcAddr count : Nat) : wordMax pageShift srcAddr count ≤ count := by
  unfold wordMax
  split
  · exact Nat.min_le_right _ _
  · exact le_rfl

/-- An aligned source is read at aligned places, and another one only up to the end of its page. -/
theorem wordMax_paged {pageShift : Nat} (shift : 3 ≤ pageShift) (srcAddr count : Nat) : Paged pageShift srcAddr 0 (wordMax pageShift srcAddr count) := by
  have seven : srcAddr &&& 7 = srcAddr % 2 ^ 3 := Nat.and_two_pow_sub_one_eq_mod srcAddr 3
  have offset := Nat.and_two_pow_sub_one_eq_mod srcAddr pageShift
  have page := Nat.two_pow_pos pageShift
  intro p _ within step
  rw [Nat.zero_add] at within
  unfold wordMax at within
  have parts := Nat.div_add_mod srcAddr (2 ^ pageShift)
  by_cases unaligned : srcAddr &&& 7 ≠ 0
  · rw [if_pos unaligned, offset] at within
    have lt := Nat.mod_lt srcAddr page
    have same {d : Nat} (less : srcAddr % 2 ^ pageShift + d < 2 ^ pageShift) : (srcAddr + d) / 2 ^ pageShift = srcAddr / 2 ^ pageShift := by
      have sum : srcAddr + d = srcAddr % 2 ^ pageShift + d + 2 ^ pageShift * (srcAddr / 2 ^ pageShift) := by omega
      rw [sum, Nat.add_mul_div_left _ _ page, Nat.div_eq_of_lt less, Nat.zero_add]
    rw [Nat.add_assoc, same (by omega), same (by omega)]
  · obtain ⟨k, eight⟩ : ∃ k, 2 ^ pageShift = 8 * k := Nat.pow_dvd_pow 2 shift
    have aligned : (srcAddr + p) % 8 = 0 := by
      have low := not_not.mp unaligned
      rw [seven] at low
      omega
    rw [eight, ← Nat.div_div_eq_div_mul, ← Nat.div_div_eq_div_mul]
    congr 1
    omega

/-! ## The result -/

theorem strscpy_copied {pageShift : Nat} (shift : 3 ≤ pageShift) (srcAddr : Nat) (ends : Ends src n) (dest : Nat → Byte) (count : Nat) :
    Copied src dest n count (strscpy pageShift srcAddr src dest count).ret (strscpy pageShift srcAddr src dest count).dest ∧
    Inside pageShift srcAddr n count (strscpy pageShift srcAddr src dest count).words := by
  have none : Inside pageShift srcAddr n count [] := fun p member => absurd member List.not_mem_nil
  unfold strscpy
  by_cases empty : count = 0
  · simp only [if_pos empty]
    exact ⟨⟨(if_neg (by omega)).symm, fun i below => by omega, fun pos => by omega, fun i _ => rfl⟩, none⟩
  · simp only [if_neg empty]
    have start : Copying src dest n count 0 count dest := ⟨Nat.zero_add _, Nat.zero_le _, fun i below => absurd below (Nat.not_lt_zero i), fun i _ => rfl⟩
    have copied := @wordLoop_copied src dest n count ends pageShift srcAddr _ ⟨0, count, dest, []⟩ start (wordMax_le _ _ _) none
      (wordMax_paged shift srcAddr count)
    cases run : wordLoop src (wordMax pageShift srcAddr count) ⟨0, count, dest, []⟩ with
    | error done =>
        rw [run] at copied
        exact copied
    | ok st =>
        rw [run] at copied
        exact ⟨byteLoop_copied ends copied.1, copied.2⟩

/-- Two copies of one string agree. -/
theorem Copied.agree {count : Nat} {ret ret' : Int} {dest dest' dest₁ dest₁' : Nat → Byte} (copied : Copied src dest₁ n count ret dest)
    (copied' : Copied src dest₁' n count ret' dest') : ret = ret' ∧ (0 < count → ∀ i ≤ min n (count - 1), dest i = dest' i) := by
  refine ⟨copied.ret.trans copied'.ret.symm, fun pos i within => ?_⟩
  rcases Nat.eq_or_lt_of_le within with rfl | below
  · rw [copied.nul pos, copied'.nul pos]
  · rw [copied.text i below, copied'.text i below]

/-- `strscpy` copies what the loop over bytes copies, and reads words only where they are mapped. -/
theorem strscpy_copies {pageShift : Nat} (shift : 3 ≤ pageShift) (srcAddr : Nat) {src : Nat → Byte} {n : Nat} (ends : Ends src n) (dest : Nat → Byte)
    (count : Nat) :
    let done := strscpy pageShift srcAddr src dest count
    done.ret = (if n < count then (n : Int) else eTooBig) ∧
    (∀ i < min n (count - 1), done.dest i = src i) ∧ (0 < count → done.dest (min n (count - 1)) = 0) ∧
    (∀ i, count ≤ i → done.dest i = dest i) ∧
    (∀ p ∈ done.words, p ≤ n ∧ p + 8 ≤ count ∧ (srcAddr + p) / 2 ^ pageShift = (srcAddr + p + 7) / 2 ^ pageShift) ∧
    done.ret = (byteLoop src count 0 dest).1 ∧ (0 < count → ∀ i ≤ min n (count - 1), done.dest i = (byteLoop src count 0 dest).2 i) := by
  obtain ⟨copied, inside⟩ := strscpy_copied shift srcAddr ends dest count
  have start : Copying src dest n count 0 count dest := ⟨Nat.zero_add _, Nat.zero_le _, fun i below => absurd below (Nat.not_lt_zero i), fun i _ => rfl⟩
  obtain ⟨ret, text⟩ := copied.agree (byteLoop_copied ends start)
  exact ⟨copied.ret, copied.text, copied.nul, copied.beyond, inside, ret, text⟩

/-- Ten bytes from an unaligned address, for a buffer of nine. -/
theorem strscpy_cut : (strscpy 12 0xff9 (fun i => if i < 10 then 0x61 else 0) (fun _ => 0x7a) 9).ret = eTooBig :=
  (strscpy_copies (by decide) 0xff9 (n := 10) ⟨fun i below => by rw [if_pos below]; decide, rfl⟩ (fun _ => 0x7a) 9).1

end Miracle.Text
