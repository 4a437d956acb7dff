import Miracle.Bitmap.Words
import Miracle.Strtox.Basic

/-! # Hexadecimal masks

`__bitmap_parse` reads chunks of 32 bits, most significant first, and counts the bits of the number
in an `int`.  A run has no result when it leaves the words of the mask or does not end, and every
string has a result.
-/

namespace Miracle.Bitmap

open Strtox

def eOverflow : Int := -75

def isupper (c : Char) : Bool := ('A' ≤ c ∧ c ≤ 'Z') ∨ (192 ≤ c.toNat ∧ c.toNat ≤ 222 ∧ c.toNat ≠ 215)

/-- `hex_to_bin`. -/
def hexToBin (ch : Char) : Int :=
  if '0' ≤ ch ∧ ch ≤ '9' then ch.toNat - '0'.toNat
  else
    let ch := if isupper ch then ch.toNat + 32 else ch.toNat
    if 'a'.toNat ≤ ch ∧ ch ≤ 'f'.toNat then ch - 'a'.toNat + 10 else -1

/-- The loop over the characters of one chunk. -/
def nextChunk : List Char → Char → Nat → Nat → Except Int (List Char × Char × Nat × Nat)
  | [], c, chunk, totaldigits => .ok ([], c, chunk, totaldigits)
  | c :: buf, oldC, chunk, totaldigits =>
      if isspace c then nextChunk buf c chunk totaldigits
      else if totaldigits ≠ 0 ∧ c ≠ nul ∧ isspace oldC then .error eInval
      else if c = nul ∨ c = ',' then .ok (buf, c, chunk, totaldigits)
      else if ¬ isxdigit c then .error eInval
      else if chunk &&& (2 ^ 64 - 2 ^ 28) ≠ 0 then .error eOverflow
      else nextChunk buf c (u32 (chunk <<< 4) ||| (hexToBin c % 2 ^ 32).toNat) (u32 (totaldigits + 1))

/-- The mask with the next chunk at its low end. -/
def pushChunk (maskp : List Word) (chunk nmaskbits : Nat) : Option (List Word) := do
  let maskp ← bitmapShiftLeft maskp 32 nmaskbits
  let w ← maskp[0]?
  store maskp 0 (w ||| BitVec.ofNat 64 chunk)

/-- The bits that a chunk adds to the number. -/
def chunkBits (nchunks chunk : Nat) : Nat := if nchunks = 1 then fls chunk else 32

/-- The outer loop of `__bitmap_parse`. -/
def parseChunks (nmaskbits : Nat) : Nat → List Char → Char → Nat → Nat → Int → List Word → Option (Int × List Word)
  | 0, _, _, _, _, _, _ => none
  | fuel + 1, buf, c, totaldigits, nchunks, nbits, maskp =>
      match nextChunk buf c 0 totaldigits with
      | .error ret => some (ret, maskp)
      | .ok (buf, c, chunk, total) =>
          if totaldigits = total then some (eInval, maskp)
          else if nchunks = 0 ∧ chunk = 0 then
            if buf ≠ [] ∧ c = ',' then parseChunks nmaskbits fuel buf c total nchunks nbits maskp else some (0, maskp)
          else
            (pushChunk maskp chunk nmaskbits).bind fun maskp =>
              let nchunks := u32 (nchunks + 1)
              let nbits := s32 (nbits + chunkBits nchunks chunk)
              if nbits > nmaskbits then some (eOverflow, maskp)
              else if buf ≠ [] ∧ c = ',' then parseChunks nmaskbits fuel buf c total nchunks nbits maskp
              else some (0, maskp)

/-- `__bitmap_parse`, with the return value and the words of the mask. -/
def bitmapParse (buf : List Char) (maskp : List Word) (nmaskbits : Nat) : Option (Int × List Word) :=
  (bitmapZero maskp nmaskbits).bind fun maskp => parseChunks nmaskbits (buf.length + 1) buf nul 0 0 0 maskp

/-! ## Every string has a result -/

theorem nextChunk_read {buf rest : List Char} {oldC c : Char} {chunk chunk' total total' : Nat}
    (read : nextChunk buf oldC chunk total = .ok (rest, c, chunk', total')) : rest = [] ∨ rest.length < buf.length := by
  induction buf generalizing oldC chunk total with
  | nil =>
      cases read
      exact .inl rfl
  | cons d buf ih =>
      rw [nextChunk] at read
      split_ifs at read
      · exact (ih read).imp_right Nat.lt_succ_of_lt
      · cases read
        exact .inr (Nat.lt_succ_self _)
      · exact (ih read).imp_right Nat.lt_succ_of_lt

theorem pushChunk_spec {maskp : List Word} {chunk nmaskbits : Nat} (pos : 0 < nmaskbits) (room : maskp.length = bitsToLongs nmaskbits)
    (word : chunk < 2 ^ 32) :
    ∃ maskp', pushChunk maskp chunk nmaskbits = some maskp' ∧ maskp'.length = maskp.length ∧
      ∀ i, bit maskp' i = (decide (32 ≤ i ∧ i < 64 * maskp.length) && bit maskp (i - 32) || chunk.testBit i) := by
  have words : 0 < maskp.length := by
    rw [room, bitsToLongs]
    omega
  obtain ⟨shifted, run, length, bits⟩ := @bitmapShiftLeft_spec maskp 32 nmaskbits room (Nat.zero_le _)
  obtain ⟨w, ws, rfl⟩ := List.exists_cons_of_length_pos (length ▸ words)
  refine ⟨(w ||| BitVec.ofNat 64 chunk) :: ws, ?_, length, fun i => ?_⟩
  · rw [pushChunk, run]
    rfl
  · rw [← bits, bit_cons, bit_cons]
    by_cases low : i < 64
    · rw [if_pos low, if_pos low, BitVec.getLsbD_or, BitVec.getLsbD_ofNat, decide_eq_true low, Bool.true_and]
    · have high : chunk.testBit i = false := Nat.testBit_lt_two_pow (word.trans_le (Nat.pow_le_pow_right (by decide) (by omega)))
      rw [if_neg low, if_neg low, high, Bool.or_false]

theorem nextChunk_word {buf rest : List Char} {oldC c : Char} {chunk chunk' total total' : Nat} (word : chunk < 2 ^ 32)
    (read : nextChunk buf oldC chunk total = .ok (rest, c, chunk', total')) : chunk' < 2 ^ 32 := by
  induction buf generalizing oldC chunk total with
  | nil =>
      cases read
      exact word
  | cons d buf ih =>
      rw [nextChunk] at read
      split_ifs at read
      · exact ih word read
      · cases read
        exact word
      · refine ih (Nat.or_lt_two_pow (u32_lt _) ?_) read
        omega

theorem parseChunks_total {nmaskbits fuel nchunks total : Nat} {buf : List Char} {c : Char} {nbits : Int} {maskp : List Word}
    (pos : 0 < nmaskbits) (room : maskp.length = bitsToLongs nmaskbits) (enough : buf.length < fuel) :
    ∃ ret maskp', parseChunks nmaskbits fuel buf c total nchunks nbits maskp = some (ret, maskp') ∧ maskp'.length = maskp.length := by
  induction fuel generalizing buf c total nchunks nbits maskp with
  | zero => exact absurd enough (Nat.not_lt_zero _)
  | succ fuel ih =>
      rw [parseChunks]
      cases read : nextChunk buf c 0 total with
      | error ret => exact ⟨ret, maskp, rfl, rfl⟩
      | ok next =>
          obtain ⟨rest, c', chunk, total'⟩ := next
          have short := nextChunk_read read
          obtain ⟨pushed, push, length, -⟩ := pushChunk_spec pos room (nextChunk_word (Nat.two_pow_pos 32) read)
          have again {nchunks : Nat} {nbits : Int} {maskp : List Word} (room : maskp.length = bitsToLongs nmaskbits) (more : rest ≠ [] ∧ c' = ',') :
              ∃ ret maskp', parseChunks nmaskbits fuel rest c' total' nchunks nbits maskp = some (ret, maskp') ∧
                maskp'.length = maskp.length := by
            have shorter := short.resolve_left more.1
            exact ih room (by omega)
          simp only [push, Option.bind_some]
          split_ifs with bare skip more wide more
          · exact ⟨eInval, maskp, rfl, rfl⟩
          · exact again room more
          · exact ⟨0, maskp, rfl, rfl⟩
          · exact ⟨eOverflow, pushed, rfl, length⟩
          · obtain ⟨ret, maskp', run, same⟩ := again (length.trans room) more
            exact ⟨ret, maskp', run, same.trans length⟩
          · exact ⟨0, pushed, rfl, length⟩

theorem bitmapParse_total {nmaskbits : Nat} (buf : List Char) {maskp : List Word} (pos : 0 < nmaskbits)
    (room : maskp.length = bitsToLongs nmaskbits) :
    ∃ ret maskp', bitmapParse buf maskp nmaskbits = some (ret, maskp') ∧ maskp'.length = maskp.length := by
  have zero : (List.replicate maskp.length (0 : Word)).length = maskp.length := List.length_replicate
  obtain ⟨ret, maskp', run, length⟩ := parseChunks_total pos (zero.trans room) (Nat.lt_succ_self buf.length)
  refine ⟨ret, maskp', ?_, length.trans zero⟩
  rw [bitmapParse, bitmapZero_spec room]
  exact run

/-! ## The mask grammar

A mask is written as hexadecimal chunks of any length, each one of which counts for 32 bits.  The
bits of the number are counted modulo `2 ^ 32`, with a sign.
-/

/-- The value of a hexadecimal digit. -/
def hexVal (c : Char) : Nat := (digit c).getD 0

/-- A chunk of a mask. -/
structure Chunk where
  chars : List Char
  nonempty : chars ≠ []
  hex : ∀ c ∈ chars, isxdigit c = true

def Chunk.value (chunk : Chunk) : Nat := Numeral.value 16 (chunk.chars.map hexVal)

def maskText (chunks : List Chunk) : List Char := [','].intercalate (chunks.map Chunk.chars)

/-- The number that the chunks make up. -/
def number (chunks : List Chunk) : Nat := Numeral.value (2 ^ 32) (chunks.map Chunk.value)

/-! ## Reading a chunk -/

theorem hex_char {c : Char} (hex : isxdigit c = true) :
    isspace c = false ∧ ¬ (c = nul ∨ c = ',') ∧ hexToBin c = hexVal c ∧ hexVal c < 16 := by
  have small : c.toNat < 103 := by
    simp only [isxdigit, isdigit, decide_eq_true_eq, char_le] at hex
    have codes : '9'.toNat = 57 ∧ 'F'.toNat = 70 ∧ 'f'.toNat = 102 := by decide
    omega
  have table : ∀ n : Fin 103, isxdigit (Char.ofNat n) = true → isspace (Char.ofNat n) = false ∧ ¬ (Char.ofNat n = nul ∨ Char.ofNat n = ',') ∧
      hexToBin (Char.ofNat n) = hexVal (Char.ofNat n) ∧ hexVal (Char.ofNat n) < 16 := by decide +kernel
  have found := table ⟨c.toNat, small⟩
  rw [Char.ofNat_toNat] at found
  exact found hex

theorem nextChunk_chars {cs rest : List Char} {oldC : Char} {chunk total : Nat} (hex : ∀ c ∈ cs, isxdigit c = true)
    (quiet : isspace oldC = false) (word : chunk < 2 ^ 32) (count : total < 2 ^ 32) :
    nextChunk (cs ++ rest) oldC chunk total =
      if Numeral.extend 16 chunk (cs.map hexVal) < 2 ^ 32 then
        nextChunk rest (cs.getLastD oldC) (Numeral.extend 16 chunk (cs.map hexVal)) (u32 (total + cs.length))
      else .error eOverflow := by
  induction cs generalizing oldC chunk total with
  | nil => exact (if_pos word).symm ▸ by rw [List.length_nil, Nat.add_zero, u32_of_lt count]; rfl
  | cons c cs ih =>
      obtain ⟨here, hex⟩ := List.forall_mem_cons.mp hex
      obtain ⟨space, ends, value, digit⟩ := hex_char here
      have grows : chunk * 16 + hexVal c ≤ Numeral.extend 16 (chunk * 16 + hexVal c) (cs.map hexVal) := Numeral.le_extend (by decide)
      rw [List.cons_append, nextChunk, List.map_cons, Numeral.extend_cons]
      simp only [space, quiet, ends, here, if_false, Bool.false_eq_true, and_false, not_true]
      rw [and_highMask (by omega : chunk < 2 ^ 64) (by decide : 28 ≤ 64)]
      by_cases room : chunk < 2 ^ 28
      · have free : ¬ chunk / 2 ^ 28 * 2 ^ 28 ≠ 0 := by omega
        have low : (hexToBin c % 2 ^ 32).toNat = hexVal c := by rw [value]; omega
        have shifted : u32 (chunk <<< 4) = 2 ^ 4 * chunk := by
          rw [Nat.shiftLeft_eq, u32_of_lt (by omega), Nat.mul_comm]
        have next : u32 (chunk <<< 4) ||| hexVal c = chunk * 16 + hexVal c := by
          rw [shifted, ← Nat.two_pow_add_eq_or_of_lt digit]
          omega
        have length : u32 (u32 (total + 1) + cs.length) = u32 (total + (c :: cs).length) := by
          simp only [u32, List.length_cons]
          omega
        rw [if_neg free, low, next, ih hex space (by omega) (u32_lt _), length, List.getLastD_cons]
      · have full : chunk / 2 ^ 28 * 2 ^ 28 ≠ 0 := by omega
        have out : ¬ Numeral.extend 16 (chunk * 16 + hexVal c) (cs.map hexVal) < 2 ^ 32 := by omega
        rw [if_pos full, if_neg out]

/-! ## Counting the bits -/

theorem fls_pos {n : Nat} (pos : 0 < n) : 0 < fls n := by
  rw [fls, if_neg pos.ne']
  exact Nat.succ_pos _

theorem fls_extend {acc c : Nat} (pos : 0 < acc) (word : c < 2 ^ 32) : fls (acc * 2 ^ 32 + c) = fls acc + 32 := by
  have high : acc < 2 ^ fls acc := fls_le_iff.mp le_rfl
  have low : 2 ^ (fls acc - 1) ≤ acc := by
    by_contra below
    have less := fls_le_iff.mpr (Nat.not_le.mp below)
    have bits := fls_pos pos
    omega
  refine Nat.le_antisymm ?_ ?_
  · rw [fls_le_iff, Nat.pow_add]
    omega
  · by_contra short
    have less : acc * 2 ^ 32 + c < 2 ^ (fls acc + 31) := fls_le_iff.mp (by omega)
    have bits := fls_pos pos
    have split : fls acc + 31 = fls acc - 1 + 32 := by omega
    rw [split, Nat.pow_add] at less
    omega

theorem fls_mono {x y : Nat} (le : x ≤ y) : fls x ≤ fls y := fls_le_iff.mpr (le.trans_lt (fls_le_iff.mp le_rfl))

/-- The test of each chunk, with the count of bits in an `int`. -/
def Accepts (nmaskbits : Nat) : Nat → List Nat → Prop
  | _, [] => True
  | acc, c :: cs => c < 2 ^ 32 ∧ s32 (fls (acc * 2 ^ 32 + c)) ≤ nmaskbits ∧ Accepts nmaskbits (acc * 2 ^ 32 + c) cs

theorem Accepts.words {nmaskbits acc : Nat} {cs : List Nat} (accepts : Accepts nmaskbits acc cs) : ∀ c ∈ cs, c < 2 ^ 32 := by
  induction cs generalizing acc with
  | nil => nofun
  | cons c cs ih => exact List.forall_mem_cons.mpr ⟨accepts.1, ih accepts.2.2⟩

/-- The counts that are met on the way to `n` bits are `n` modulo 32, and one of them shows that the mask is too short. -/
def Counted (nmaskbits n : Nat) : Prop := n < 2 ^ 31 ∨ ∃ k, nmaskbits < k ∧ k < 2 ^ 31 ∧ k % 32 = n % 32

theorem fls_number {acc : Nat} {cs : List Nat} (pos : 0 < acc) (words : ∀ c ∈ cs, c < 2 ^ 32) :
    fls (Numeral.extend (2 ^ 32) acc cs) % 32 = fls acc % 32 := by
  induction cs generalizing acc with
  | nil => rfl
  | cons c cs ih =>
      obtain ⟨word, words⟩ := List.forall_mem_cons.mp words
      rw [Numeral.extend_cons, ih (by omega) words, fls_extend pos word]
      omega

theorem s32_of_lt {n : Nat} (lt : n < 2 ^ 31) : s32 n = n := Int.bmod_eq_of_le (by omega) (by omega)

theorem accepts_iff {nmaskbits acc : Nat} {cs : List Nat} (int : nmaskbits < 2 ^ 31) (words : ∀ c ∈ cs, c < 2 ^ 32)
    (counted : Counted nmaskbits (fls (Numeral.extend (2 ^ 32) acc cs))) (fits : fls acc ≤ nmaskbits) :
    Accepts nmaskbits acc cs ↔ fls (Numeral.extend (2 ^ 32) acc cs) ≤ nmaskbits := by
  induction cs generalizing acc with
  | nil => exact ⟨fun _ => fits, fun _ => trivial⟩
  | cons c cs ih =>
      obtain ⟨word, words⟩ := List.forall_mem_cons.mp words
      rw [Numeral.extend_cons] at counted ⊢
      rw [Accepts]
      by_cases more : fls (acc * 2 ^ 32 + c) ≤ nmaskbits
      · have small : s32 (fls (acc * 2 ^ 32 + c)) ≤ nmaskbits := by
          rw [s32_of_lt (by omega)]
          exact_mod_cast more
        rw [ih words counted more]
        exact ⟨fun all => all.2.2, fun fits => ⟨word, small, fits⟩⟩
      · have grows : fls (acc * 2 ^ 32 + c) ≤ fls (Numeral.extend (2 ^ 32) (acc * 2 ^ 32 + c) cs) :=
          fls_mono (Numeral.le_extend (by decide))
        have short : fls (acc * 2 ^ 32 + c) < 2 ^ 31 := by
          rcases counted with small | ⟨k, above, below, same⟩
          · omega
          · rcases Nat.eq_zero_or_pos acc with rfl | pos
            · have chunk : fls (0 * 2 ^ 32 + c) ≤ 32 := fls_le_iff.mpr (by omega)
              omega
            · rw [fls_number (by omega) words, fls_extend pos word] at same
              rw [fls_extend pos word]
              omega
        refine iff_of_false (fun all => ?_) (by omega)
        have small := all.2.1
        rw [s32_of_lt short] at small
        exact more (by exact_mod_cast small)

theorem accepts_uncounted {nmaskbits acc : Nat} {cs : List Nat} (words : ∀ c ∈ cs, c < 2 ^ 32)
    (uncounted : ¬ Counted nmaskbits (fls (Numeral.extend (2 ^ 32) acc cs))) : Accepts nmaskbits acc cs := by
  induction cs generalizing acc with
  | nil => trivial
  | cons c cs ih =>
      obtain ⟨word, words⟩ := List.forall_mem_cons.mp words
      rw [Numeral.extend_cons] at uncounted
      refine ⟨word, ?_, ih words uncounted⟩
      rcases Nat.eq_zero_or_pos (acc * 2 ^ 32 + c) with zero | pos
      · rw [zero]
        exact Int.natCast_nonneg nmaskbits
      · have same := fls_number pos words
        by_contra out
        refine uncounted (.inr ⟨(s32 (fls (acc * 2 ^ 32 + c))).toNat, by omega, ?_, ?_⟩)
        · have below : s32 (fls (acc * 2 ^ 32 + c)) < 2 ^ 31 := by
            have := Int.bmod_lt (x := fls (acc * 2 ^ 32 + c)) (m := 2 ^ 32) (by decide)
            simp only [s32]
            omega
          omega
        · rw [same]
          have congr : s32 (fls (acc * 2 ^ 32 + c)) % 32 = (fls (acc * 2 ^ 32 + c) : Int) % 32 := by
            rw [s32, Int.bmod_def]
            split <;> omega
          omega

/-! ## Reading a mask -/

/-- The mask and the counters after chunks that make up `acc`. -/
structure ReadSoFar (acc nchunks : Nat) (nbits : Int) (maskp : List Word) : Prop where
  bits : nbits = s32 (fls acc)
  empty : nchunks = 0 ↔ acc = 0
  mask : ∀ i, bit maskp i = (decide (i < 64 * maskp.length) && acc.testBit i)

theorem ReadSoFar.skip {nchunks : Nat} {nbits : Int} {maskp : List Word} {acc chunk : Nat} (read : ReadSoFar acc nchunks nbits maskp)
    (zero : nchunks = 0 ∧ chunk = 0) : ReadSoFar (acc * 2 ^ 32 + chunk) nchunks nbits maskp := by
  obtain ⟨none, rfl⟩ := zero
  have acc_zero := read.empty.mp none
  subst acc_zero
  exact read

theorem ReadSoFar.push {nmaskbits nchunks : Nat} {nbits : Int} {maskp maskp' : List Word} {acc chunk : Nat}
    (read : ReadSoFar acc nchunks nbits maskp) (pos : 0 < nmaskbits) (room : maskp.length = bitsToLongs nmaskbits) (word : chunk < 2 ^ 32)
    (some : ¬ (nchunks = 0 ∧ chunk = 0)) (count : nchunks + 1 < 2 ^ 32) (push : pushChunk maskp chunk nmaskbits = .some maskp') :
    ReadSoFar (acc * 2 ^ 32 + chunk) (u32 (nchunks + 1)) (s32 (nbits + chunkBits (u32 (nchunks + 1)) chunk)) maskp' ∧
      maskp'.length = maskp.length := by
  obtain ⟨pushed, again, length, bits⟩ := pushChunk_spec pos room word
  cases again.symm.trans push
  have next : u32 (nchunks + 1) = nchunks + 1 := u32_of_lt count
  rw [next]
  refine ⟨⟨?_, ?_, fun i => ?_⟩, length⟩
  · rw [read.bits, chunkBits]
    by_cases first : nchunks = 0
    · have zero := read.empty.mp first
      subst first zero
      have none : s32 (fls 0) = 0 := by simp [s32, fls]
      rw [if_pos rfl, none, Int.zero_add, Nat.zero_mul, Nat.zero_add]
    · have later : ¬ nchunks + 1 = 1 := by omega
      have acc_pos := Nat.pos_of_ne_zero (read.empty.not.mp first)
      rw [if_neg later, fls_extend acc_pos word, s32, s32, Int.bmod_add_bmod, Nat.cast_add, s32]
  · have acc_some : nchunks = 0 ∨ acc ≠ 0 := or_iff_not_imp_left.mpr read.empty.not.mp
    omega
  · have digits := Nat.testBit_two_pow_mul_add acc word i
    rw [Nat.mul_comm acc, digits, bits, read.mask, length]
    by_cases low : i < 32
    · have below : ¬ (32 ≤ i ∧ i < 64 * maskp.length) := by omega
      have words : 0 < maskp.length := by
        rw [room, bitsToLongs]
        omega
      have inside : i < 64 * maskp.length := by omega
      rw [if_pos low, decide_eq_false below, decide_eq_true inside, Bool.false_and, Bool.false_or, Bool.true_and]
    · have high : chunk.testBit i = false := Nat.testBit_lt_two_pow (word.trans_le (Nat.pow_le_pow_right (by decide) (Nat.not_lt.mp low)))
      rw [if_neg low, high, Bool.or_false]
      by_cases inside : i < 64 * maskp.length
      · have within : 32 ≤ i ∧ i < 64 * maskp.length := ⟨Nat.not_lt.mp low, inside⟩
        have before : i - 32 < 64 * maskp.length := by omega
        rw [decide_eq_true within, decide_eq_true before, decide_eq_true inside, Bool.true_and, Bool.true_and]
      · have outside : ¬ (32 ≤ i ∧ i < 64 * maskp.length) := fun both => inside both.2
        rw [decide_eq_false outside, decide_eq_false inside, Bool.false_and, Bool.false_and]

/-- What may follow the text in its buffer. -/
inductive Tail : List Char → Prop where
  | full : Tail []
  | terminated (junk : List Char) : Tail (nul :: junk)

theorem nextChunk_tail {tail : List Char} {oldC : Char} {chunk total : Nat} (ends : Tail tail) :
    ∃ rest c, nextChunk tail oldC chunk total = .ok (rest, c, chunk, total) ∧ ¬ (rest ≠ [] ∧ c = ',') := by
  cases ends with
  | full => exact ⟨[], oldC, rfl, fun more => more.1 rfl⟩
  | terminated junk =>
      have char : isspace nul = false ∧ nul ≠ ',' := by decide
      refine ⟨junk, nul, ?_, fun more => char.2 more.2⟩
      rw [nextChunk]
      simp [char.1]

theorem nextChunk_comma {rest : List Char} {oldC : Char} {chunk total : Nat} (quiet : isspace oldC = false) :
    nextChunk (',' :: rest) oldC chunk total = .ok (rest, ',', chunk, total) := by
  have char : isspace ',' = false := by decide
  rw [nextChunk]
  simp [char, quiet]

/-- One round of the outer loop over a chunk that is a word. -/
theorem parseChunks_chunk {nmaskbits fuel nchunks acc total total' chunk : Nat} {nbits : Int} {maskp maskp' : List Word} {buf rest : List Char}
    {c c' : Char} {ret : Int} (pos : 0 < nmaskbits) (room : maskp.length = bitsToLongs nmaskbits) (count : nchunks + 1 < 2 ^ 32)
    (read : ReadSoFar acc nchunks nbits maskp) (chars : nextChunk buf c 0 total = .ok (rest, c', chunk, total')) (more : total ≠ total')
    (run : parseChunks nmaskbits (fuel + 1) buf c total nchunks nbits maskp = some (ret, maskp')) :
    (nmaskbits < s32 (fls (acc * 2 ^ 32 + chunk)) ∧ ret = eOverflow) ∨
      s32 (fls (acc * 2 ^ 32 + chunk)) ≤ nmaskbits ∧ ∃ nchunks' nbits' mid, ReadSoFar (acc * 2 ^ 32 + chunk) nchunks' nbits' mid ∧
        mid.length = maskp.length ∧ nchunks' ≤ nchunks + 1 ∧
        if rest ≠ [] ∧ c' = ',' then parseChunks nmaskbits fuel rest c' total' nchunks' nbits' mid = some (ret, maskp')
        else ret = 0 ∧ maskp' = mid := by
  have word := nextChunk_word (Nat.two_pow_pos 32) chars
  rw [parseChunks, chars] at run
  simp only [if_neg more] at run
  have goOn {nchunks : Nat} {nbits : Int} {mid : List Word}
      (run : (if rest ≠ [] ∧ c' = ',' then parseChunks nmaskbits fuel rest c' total' nchunks nbits mid else some (0, mid)) = some (ret, maskp')) :
      if rest ≠ [] ∧ c' = ',' then parseChunks nmaskbits fuel rest c' total' nchunks nbits mid = some (ret, maskp')
      else ret = 0 ∧ maskp' = mid := by
    split_ifs at run ⊢
    · exact run
    · cases run
      exact ⟨rfl, rfl⟩
  by_cases skip : nchunks = 0 ∧ chunk = 0
  · rw [if_pos skip] at run
    have next := read.skip skip
    have zero : acc * 2 ^ 32 + chunk = 0 := by rw [read.empty.mp skip.1, skip.2, Nat.zero_mul]
    have none : s32 (fls 0) = 0 := by simp [s32, fls]
    refine .inr ⟨?_, nchunks, nbits, maskp, next, rfl, Nat.le_succ _, goOn run⟩
    rw [zero, none]
    exact Int.natCast_nonneg nmaskbits
  · obtain ⟨mid, push, -⟩ := @pushChunk_spec maskp chunk nmaskbits pos room word
    obtain ⟨next, length⟩ := read.push pos room word skip count push
    simp only [if_neg skip, push, Option.bind_some] at run
    have counted : u32 (nchunks + 1) ≤ nchunks + 1 := Nat.mod_le _ _
    rw [next.bits] at run
    rcases le_or_gt (s32 (fls (acc * 2 ^ 32 + chunk))) nmaskbits with fits | wide
    · rw [if_neg (not_lt.mpr fits)] at run
      exact .inr ⟨fits, _, _, mid, ⟨rfl, next.empty, next.mask⟩, length, counted, goOn run⟩
    · rw [if_pos wide] at run
      cases run
      exact .inl ⟨wide, rfl⟩

theorem maskText_cons (chunk next : Chunk) (chunks : List Chunk) :
    maskText (chunk :: next :: chunks) = chunk.chars ++ ',' :: maskText (next :: chunks) := by
  simp [maskText, List.intercalate]

theorem chars_le_maskText (chunk : Chunk) (chunks : List Chunk) : chunk.chars.length ≤ (maskText (chunk :: chunks)).length := by
  cases chunks with
  | nil => simp [maskText, List.intercalate]
  | cons next chunks =>
      rw [maskText_cons, List.length_append]
      exact Nat.le_add_right _ _

theorem parseChunks_spec {nmaskbits fuel nchunks acc total : Nat} {nbits : Int} {maskp maskp' : List Word} {chunk : Chunk} {chunks : List Chunk}
    {tail : List Char} {c : Char} {ret : Int} (pos : 0 < nmaskbits) (room : maskp.length = bitsToLongs nmaskbits) (ends : Tail tail)
    (quiet : isspace c = false) (digits : total + (maskText (chunk :: chunks)).length < 2 ^ 32) (count : nchunks + (chunks.length + 1) < 2 ^ 32)
    (read : ReadSoFar acc nchunks nbits maskp)
    (run : parseChunks nmaskbits fuel (maskText (chunk :: chunks) ++ tail) c total nchunks nbits maskp = some (ret, maskp')) :
    (ret = 0 ↔ Accepts nmaskbits acc ((chunk :: chunks).map Chunk.value)) ∧
      (ret = 0 → ∀ i, bit maskp' i = (decide (i < 64 * maskp.length) &&
        (Numeral.extend (2 ^ 32) acc ((chunk :: chunks).map Chunk.value)).testBit i)) := by
  induction fuel generalizing chunk chunks c total nchunks nbits maskp acc with
  | zero => cases run
  | succ fuel ih =>
      have overflow : eOverflow ≠ 0 := by decide
      have some_digits := List.length_pos_iff.mpr chunk.nonempty
      have last : isspace (chunk.chars.getLastD c) = false := by
        rw [List.getLastD_eq_getLast?, List.getLast?_eq_some_getLast chunk.nonempty]
        exact (hex_char (chunk.hex _ (List.getLast_mem _))).1
      rw [List.map_cons, Accepts, Numeral.extend_cons]
      have chars (rest : List Char) := @nextChunk_chars chunk.chars rest c 0 total chunk.hex quiet (Nat.two_pow_pos 32) (by omega)
      have more (short : total + chunk.chars.length < 2 ^ 32) : total ≠ u32 (total + chunk.chars.length) := by
        rw [u32_of_lt short]
        omega
      have refused {P : Prop} (wide : nmaskbits < s32 (fls (acc * 2 ^ 32 + chunk.value)) ∧ ret = eOverflow) :
          (ret = 0 ↔ chunk.value < 2 ^ 32 ∧ s32 (fls (acc * 2 ^ 32 + chunk.value)) ≤ nmaskbits ∧ P) :=
        iff_of_false (wide.2 ▸ overflow) fun all => not_le.mpr wide.1 all.2.1
      by_cases word : chunk.value < 2 ^ 32
      · cases chunks with
        | nil =>
            have text : maskText [chunk] = chunk.chars := by simp [maskText, List.intercalate]
            rw [text] at run digits
            obtain ⟨rest, c', stop, ended⟩ := @nextChunk_tail tail (chunk.chars.getLastD c) chunk.value (u32 (total + chunk.chars.length)) ends
            have whole := ((chars tail).trans (if_pos word)).trans stop
            rcases parseChunks_chunk pos room count read whole (more digits) run with wide | ⟨fits, _, _, mid, next, length, -, done⟩
            · exact ⟨refused wide, fun zero => absurd (wide.2.symm.trans zero) overflow⟩
            · rw [if_neg ended] at done
              obtain ⟨rfl, rfl⟩ := done
              exact ⟨iff_of_true rfl ⟨word, fits, trivial⟩, fun _ i => length ▸ next.mask i⟩
        | cons second chunks =>
            have text : maskText (chunk :: second :: chunks) ++ tail = chunk.chars ++ ',' :: (maskText (second :: chunks) ++ tail) := by
              rw [maskText_cons, List.append_assoc, List.cons_append]
            rw [text] at run
            rw [maskText_cons, List.length_append, List.length_cons] at digits
            have whole := ((chars (',' :: (maskText (second :: chunks) ++ tail))).trans (if_pos word)).trans (nextChunk_comma last)
            have nonempty : maskText (second :: chunks) ++ tail ≠ [] := by
              have pos := (List.length_pos_iff.mpr second.nonempty).trans_le (chars_le_maskText second chunks)
              exact List.append_ne_nil_of_left_ne_nil (List.ne_nil_of_length_pos pos) tail
            rcases parseChunks_chunk pos room (by omega) read whole (more (by omega)) run with wide | ⟨fits, _, _, mid, next, length, counted, done⟩
            · exact ⟨refused wide, fun zero => absurd (wide.2.symm.trans zero) overflow⟩
            · rw [if_pos ⟨nonempty, rfl⟩] at done
              rw [u32_of_lt (by omega)] at done
              rw [List.length_cons] at count
              obtain ⟨accepts, bits⟩ := ih (length.trans room) (by decide) (by omega) (by omega) next done
              rw [length] at bits
              exact ⟨accepts.trans ⟨fun rest => ⟨word, fits, rest⟩, fun all => all.2.2⟩, bits⟩
      · have head : ∃ follow, maskText (chunk :: chunks) ++ tail = chunk.chars ++ follow := by
          cases chunks with
          | nil => exact ⟨tail, by simp [maskText, List.intercalate]⟩
          | cons second chunks => exact ⟨_, by rw [maskText_cons, List.append_assoc]⟩
        obtain ⟨follow, text⟩ := head
        rw [text, parseChunks, (chars follow).trans (if_neg word)] at run
        cases run
        exact ⟨iff_of_false overflow fun all => word all.1, fun zero => absurd zero overflow⟩

theorem length_le_maskText (chunks : List Chunk) : chunks.length ≤ (maskText chunks).length := by
  induction chunks with
  | nil => exact Nat.zero_le _
  | cons chunk chunks ih =>
      have pos := List.length_pos_iff.mpr chunk.nonempty
      cases chunks with
      | nil => exact pos.trans_le (chars_le_maskText chunk [])
      | cons next chunks =>
          rw [maskText_cons, List.length_append]
          simp only [List.length_cons] at ih ⊢
          omega

theorem bitmapParse_spec {nmaskbits : Nat} {maskp maskp' : List Word} {chunk : Chunk} {chunks : List Chunk} {tail : List Char} {ret : Int}
    (pos : 0 < nmaskbits) (room : maskp.length = bitsToLongs nmaskbits) (ends : Tail tail)
    (short : (maskText (chunk :: chunks) ++ tail).length < 2 ^ 32)
    (run : bitmapParse (maskText (chunk :: chunks) ++ tail) maskp nmaskbits = some (ret, maskp')) :
    (ret = 0 ↔ Accepts nmaskbits 0 ((chunk :: chunks).map Chunk.value)) ∧
      (ret = 0 → ∀ i, bit maskp' i = (decide (i < 64 * maskp.length) && (number (chunk :: chunks)).testBit i)) := by
  have zero : (List.replicate maskp.length (0 : Word)).length = maskp.length := List.length_replicate
  have start : ReadSoFar 0 0 0 (List.replicate maskp.length 0) := by
    refine ⟨by simp [s32, fls], iff_of_true rfl rfl, fun i => ?_⟩
    rw [bit_replicate, Nat.zero_testBit, Bool.and_false]
  have text := length_le_maskText (chunk :: chunks)
  rw [List.length_append] at short
  rw [List.length_cons] at text
  rw [bitmapParse, bitmapZero_spec room, Option.bind_some] at run
  have spec := parseChunks_spec pos (zero.trans room) ends (by decide) (by omega) (by omega) start run
  rw [zero] at spec
  exact spec

end Miracle.Bitmap
