import Miracle.Bitmap.ParseHex
import Miracle.Vsprintf.Printf

/-! # Hexadecimal dumps

The conversions of `hexdump.c`.  A call of `hex2bin` comes with the place its cursor has reached: it
has read every character before.  A line of `hex_dump_to_buffer` is written at a cursor that counts
the characters; a jump leaves the course with what has been written.
-/

namespace Miracle.Text

open Strtox Vsprintf
open Bitmap (hexToBin)

/-! ## Bytes and digits -/

/-- The return value of `hex2bin`, the bytes it wrote and the place its cursor has reached. -/
structure Hex2bin where
  ret : Int
  dst : List Byte
  src : Nat
  deriving DecidableEq

/-- `hex2bin`, from a place of the cursor. -/
def hex2bin (src : Nat → Char) : (count pos : Nat) → Hex2bin
  | 0, pos => ⟨0, [], pos⟩
  | count + 1, pos =>
      let hi := hexToBin (src pos)
      let lo := hexToBin (src (pos + 1))
      if hi < 0 ∨ lo < 0 then ⟨eInval, [], pos + 2⟩
      else
        let done := hex2bin src count (pos + 2)
        { done with dst := Fin.ofNat 256 (hi.toNat <<< 4 ||| lo.toNat) :: done.dst }

def bin2hex (src : List Byte) : List Char := src.flatMap hexBytePack

/-! ## Lines -/

/-- Where a line is left: the buffer is full, or an argument is missing. -/
inductive Jump where
  | overflow1 (o : Out)
  | overflow2 (o : Out)
  | fault

/-- `if (linebuflen < lx + 2) goto overflow2; linebuf[lx++] = c;` -/
def store (linebuflen : Nat) (o : Out) (c : Char) : Except Jump Out :=
  if linebuflen < o.pos + 2 then .error (.overflow2 o) else .ok (put none o c)

def hexAscHi (x : Byte) : Char := hexAsc ((x &&& 0xf0) >>> 4 : Nat)

def hexAscLo (x : Byte) : Char := hexAsc (x &&& 0x0f : Nat)

/-- The loop over single bytes. -/
def dumpBytes (linebuflen : Nat) : List Byte → Out → Except Jump Out
  | [], o => .ok o
  | ch :: ptr, o => do
      let o ← store linebuflen o (hexAscHi ch)
      let o ← store linebuflen o (hexAscLo ch)
      let o ← store linebuflen o ' '
      dumpBytes linebuflen ptr o

/-- A string literal, behind the first page. -/
def literal {A : Type} (bs : List Byte) : Pointer A := ⟨BitVec.ofNat 64 pageSize, .bytes bs⟩

/-- The loop over larger groups, with `left` of them to go. -/
def dumpGroups (linebuflen : Nat) (fmt : CString) (value : Nat → VArg 0) : (left j : Nat) → Out → Except Jump Out
  | 0, _, o => .ok o
  | left + 1, j, o =>
      let space : List Byte := if j = 0 then [] else [32]
      match printf vaArgs (callees 0) (some linebuflen) o fmt [.ptr (literal space), value j] with
      | none => .error .fault
      | some o' =>
          -- `ret >= linebuflen - lx`
          if linebuflen - o.pos ≤ o'.pos - o.pos then .error (.overflow1 o')
          else dumpGroups linebuflen fmt value left (j + 1) o'

/-- The bytes of a group. -/
def group (buf : Nat → Byte) (groupsize j : Nat) : List Byte := (List.range groupsize).map fun k => buf (groupsize * j + k)

/-- `get_unaligned`, on a little-endian machine. -/
def getUnaligned (bs : List Byte) : Nat := Nat.ofDigits 256 (bs.map Fin.val)

def dumpU64 (linebuflen : Nat) (buf : Nat → Byte) (ngroups : Nat) (o : Out) : Except Jump Out :=
  dumpGroups linebuflen ⟨"%s%16.16llx".toList, by decide⟩ (fun j => .long (BitVec.ofNat 64 (getUnaligned (group buf 8 j)))) ngroups 0 o

def dumpU32 (linebuflen : Nat) (buf : Nat → Byte) (ngroups : Nat) (o : Out) : Except Jump Out :=
  dumpGroups linebuflen ⟨"%s%8.8x".toList, by decide⟩ (fun j => .int (BitVec.ofNat 32 (getUnaligned (group buf 4 j)))) ngroups 0 o

def dumpU16 (linebuflen : Nat) (buf : Nat → Byte) (ngroups : Nat) (o : Out) : Except Jump Out :=
  dumpGroups linebuflen ⟨"%s%4.4x".toList, by decide⟩ (fun j => .int (BitVec.ofNat 32 (getUnaligned (group buf 2 j)))) ngroups 0 o

/-- `while (lx < ascii_column)`, for the characters that are missing. -/
def padColumn (linebuflen : Nat) : Nat → Out → Except Jump Out
  | 0, o => .ok o
  | n + 1, o => do
      let o ← store linebuflen o ' '
      padColumn linebuflen n o

/-- A byte in the text column. -/
def asciiChar (ch : Byte) : Char := if ch.val ≤ 0x7f ∧ isprint ch then ch.char else '.'

def dumpAscii (linebuflen : Nat) : List Byte → Out → Except Jump Out
  | [], o => .ok o
  | ch :: ptr, o => do
      let o ← store linebuflen o (asciiChar ch)
      dumpAscii linebuflen ptr o

def isPowerOf2 (n : Nat) : Bool := n ≠ 0 ∧ n &&& (n - 1) = 0

/-- The sizes of a line, after the defaults. -/
structure Layout where
  rowsize : Nat
  len : Nat
  groupsize : Nat

def layout (len : Nat) (rowsize groupsize : BitVec 32) : Layout :=
  let rowsize := if rowsize ≠ 16 ∧ rowsize ≠ 32 then 16 else rowsize.toNat
  let len := if rowsize < len then rowsize else len
  let groupsize := if ¬ isPowerOf2 (groupsize.signExtend 64).toNat ∨ 8 < groupsize.toInt then 1 else groupsize.toNat
  let groupsize := if len % groupsize ≠ 0 then 1 else groupsize
  ⟨rowsize, len, groupsize⟩

namespace Layout

def ngroups (l : Layout) : Nat := l.len / l.groupsize

def asciiColumn (l : Layout) : Nat := l.rowsize * 2 + l.rowsize / l.groupsize + 1

end Layout

/-- The first bytes of the buffer. -/
def bytes (buf : Nat → Byte) (len : Nat) : List Byte := (List.range len).map buf

/-- The hexadecimal columns. -/
def dumpHex (l : Layout) (buf : Nat → Byte) (linebuflen : Nat) (o : Out) : Except Jump Out :=
  if l.groupsize = 8 then dumpU64 linebuflen buf l.ngroups o
  else if l.groupsize = 4 then dumpU32 linebuflen buf l.ngroups o
  else if l.groupsize = 2 then dumpU16 linebuflen buf l.ngroups o
  else do
    let o ← dumpBytes linebuflen (bytes buf l.len) o
    .ok (if l.len ≠ 0 then { o with pos := o.pos - 1 } else o)

/-- The text column. -/
def dumpText (l : Layout) (buf : Nat → Byte) (linebuflen : Nat) (o : Out) : Except Jump Out := do
  let o ← padColumn linebuflen (l.asciiColumn - o.pos) o
  dumpAscii linebuflen (bytes buf l.len) o

/-- The line up to one of the labels; without a jump it is `nil`. -/
def dumpLine (l : Layout) (linebuf : Nat → Char) (buf : Nat → Byte) (linebuflen : Nat) (ascii : Bool) : Except Jump Out :=
  let o : Out := ⟨0, linebuf⟩
  if linebuflen = 0 then .error (.overflow1 o)
  else if l.len = 0 then .ok o
  else do
    let o ← dumpHex l buf linebuflen o
    if ascii then dumpText l buf linebuflen o else .ok o

/-- The length that is returned after an overflow. -/
def Layout.total (l : Layout) (ascii : Bool) : Int :=
  if ascii then l.asciiColumn + l.len else (l.groupsize * 2 + 1) * l.ngroups - 1

/-- What is returned behind each of the labels, and the memory. -/
def Layout.leave (l : Layout) (ascii : Bool) : Except Jump Out → Option (Int × (Nat → Char))
  | .ok o => some (o.pos, Function.update o.mem o.pos nul)
  | .error (.overflow2 o) => some (l.total ascii, Function.update o.mem o.pos nul)
  | .error (.overflow1 o) => some (l.total ascii, o.mem)
  | .error .fault => none

/-- `hex_dump_to_buffer`. -/
def hexDumpToBuffer (buf : Nat → Byte) (len : Nat) (rowsize groupsize : BitVec 32) (linebuf : Nat → Char) (linebuflen : Nat) (ascii : Bool) :
    Option (Int × (Nat → Char)) :=
  let l := layout len rowsize groupsize
  l.leave ascii (dumpLine l linebuf buf linebuflen ascii)

/-! ## Digits read back -/

theorem hexToBin_nonneg (c : Char) : 0 ≤ hexToBin c ↔ isxdigit c = true := by
  have le (a b : Char) : a ≤ b ↔ a.toNat ≤ b.toNat := Iff.rfl
  have codes : '0'.toNat = 48 ∧ '9'.toNat = 57 ∧ 'A'.toNat = 65 ∧ 'F'.toNat = 70 ∧ 'Z'.toNat = 90 ∧ 'a'.toNat = 97 ∧ 'f'.toNat = 102 := by decide
  obtain ⟨zero, nine, upperA, upperF, upperZ, lowerA, lowerF⟩ := codes
  simp only [hexToBin, isxdigit, isdigit, Bitmap.isupper, le, zero, nine, upperA, upperF, upperZ, lowerA, lowerF, decide_eq_true_eq]
  split_ifs <;> omega

theorem hexToBin_hexAsc {d : Nat} (digit : d < 16) : hexToBin (hexAsc d) = d := by
  have all : ∀ d < 16, hexToBin (hexAsc d) = d := by decide
  exact all d digit

/-- A byte is put together from its digits. -/
theorem byte_digits (x : Byte) : ∃ hi lo : Nat, hexToBin (hexAscHi x) = hi ∧ hexToBin (hexAscLo x) = lo ∧ Fin.ofNat 256 (hi <<< 4 ||| lo) = x := by
  have all : ∀ x : Byte, ((x &&& 0xf0) >>> 4 : Nat) < 16 ∧ (x &&& 0x0f : Nat) < 16 ∧
      Fin.ofNat 256 (((x &&& 0xf0) >>> 4 : Nat) <<< 4 ||| (x &&& 0x0f : Nat)) = x := by decide +kernel
  obtain ⟨hi, lo, value⟩ := all x
  exact ⟨_, _, hexToBin_hexAsc hi, hexToBin_hexAsc lo, value⟩

/-- What `bin2hex` writes is read back. -/
theorem hex2bin_bin2hex (b : List Byte) {src : Nat → Char} {pos : Nat} (holds : ∀ i < (bin2hex b).length, (bin2hex b)[i]? = some (src (pos + i))) :
    hex2bin src b.length pos = ⟨0, b, pos + 2 * b.length⟩ := by
  induction b generalizing pos with
  | nil => rfl
  | cons x b ih =>
      have text : bin2hex (x :: b) = hexAscHi x :: hexAscLo x :: bin2hex b := rfl
      rw [text] at holds
      simp only [List.length_cons] at holds
      have hi : hexAscHi x = src pos := Option.some.inj (holds 0 (by omega))
      have lo : hexAscLo x = src (pos + 1) := Option.some.inj (holds 1 (by omega))
      obtain ⟨high, low, hiIs, loIs, value⟩ := byte_digits x
      rw [hi] at hiIs
      rw [lo] at loIs
      have rest := @ih (pos + 2) fun i less => by
        have here := holds (i + 2) (by omega)
        rw [Nat.add_assoc pos, Nat.add_comm 2 i]
        exact here
      have digits : ¬ (hexToBin (src pos) < 0 ∨ hexToBin (src (pos + 1)) < 0) := by
        rw [hiIs, loIs]
        omega
      rw [List.length_cons, hex2bin]
      simp only [if_neg digits]
      simp only [rest, hiIs, loIs, Int.toNat_natCast, value, Hex2bin.mk.injEq, true_and]
      omega

/-! ## Strings in memory -/

/-- A string and its terminator, at the start of the memory. -/
def HoldsString (src : Nat → Char) (s : CString) : Prop := ∀ i ≤ s.chars.length, src i = charAt s.chars i

/-- The characters between two places are hexadecimal digits. -/
def HexBetween (s : CString) (start stop : Nat) : Prop := ∀ i, start ≤ i → i < stop → isxdigit (charAt s.chars i) = true

theorem charAt_end (s : CString) : isxdigit (charAt s.chars s.chars.length) = false := by
  rw [charAt, List.getD_eq_default _ _ le_rfl]
  decide

theorem HexBetween.step {s : CString} {start stop : Nat} (two : start + 2 ≤ stop) : HexBetween s start stop ↔
    isxdigit (charAt s.chars start) = true ∧ isxdigit (charAt s.chars (start + 1)) = true ∧ HexBetween s (start + 2) stop := by
  constructor
  · intro hex
    exact ⟨hex start le_rfl (by omega), hex (start + 1) (by omega) (by omega), fun i after before => hex i (by omega) before⟩
  · rintro ⟨first, second, hex⟩ i after before
    rcases Nat.eq_or_lt_of_le after with rfl | after
    · exact first
    · rcases Nat.eq_or_lt_of_le (Nat.succ_le_of_lt after) with rfl | after
      · exact second
      · exact hex i after before

/-- Only digits are left, an even number of them, and they are too few. -/
def RunsOut (s : CString) (pos count : Nat) : Prop :=
  (s.chars.length - pos) % 2 = 0 ∧ s.chars.length < pos + 2 * count ∧ HexBetween s pos s.chars.length

theorem hex2bin_from {src : Nat → Char} {s : CString} (holds : HoldsString src s) {count pos : Nat} (inside : pos ≤ s.chars.length) :
    ((hex2bin src count pos).ret = 0 ↔ pos + 2 * count ≤ s.chars.length ∧ HexBetween s pos (pos + 2 * count)) ∧
    ((hex2bin src count pos).src ≤ s.chars.length + 1 ↔ ¬ RunsOut s pos count) := by
  induction count generalizing pos with
  | zero =>
      refine ⟨iff_of_true rfl ⟨inside, fun i after before => by omega⟩, iff_of_true (Nat.le_succ_of_le inside) ?_⟩
      rintro ⟨-, less, -⟩
      omega
  | succ count ih =>
      rw [hex2bin, holds pos inside]
      have invalid : eInval ≠ 0 := by decide
      have sign (c : Char) : hexToBin c < 0 ↔ ¬ isxdigit c = true := by rw [← hexToBin_nonneg, not_le]
      rcases Nat.eq_or_lt_of_le inside with rfl | inside
      · -- the terminator is read, and what is behind it
        have stop : hexToBin (charAt s.chars s.chars.length) < 0 := (sign _).mpr (by rw [charAt_end]; exact Bool.false_ne_true)
        simp only [if_pos (Or.inl stop)]
        refine ⟨iff_of_false invalid fun both => by omega, iff_of_false (by omega) (not_not.mpr ⟨by omega, by omega, fun i after before => by omega⟩)⟩
      · rw [holds (pos + 1) inside]
        by_cases digits : isxdigit (charAt s.chars pos) = true ∧ isxdigit (charAt s.chars (pos + 1)) = true
        · have two : pos + 2 ≤ s.chars.length := by
            by_contra one
            have last : pos + 1 = s.chars.length := by omega
            have none := digits.2
            rw [last, charAt_end] at none
            cases none
          have valid : ¬ (hexToBin (charAt s.chars pos) < 0 ∨ hexToBin (charAt s.chars (pos + 1)) < 0) := by
            rintro (bad | bad)
            · exact (sign _).mp bad digits.1
            · exact (sign _).mp bad digits.2
          obtain ⟨ret, cursor⟩ := @ih (pos + 2) two
          have next : pos + 2 + 2 * count = pos + 2 * (count + 1) := by omega
          simp only [if_neg valid]
          have parity : (s.chars.length - (pos + 2)) % 2 = (s.chars.length - pos) % 2 := by omega
          have here := HexBetween.step (s := s) (show pos + 2 ≤ pos + 2 * (count + 1) by omega)
          rw [ret, cursor, next, here, RunsOut, RunsOut, HexBetween.step two, next, parity]
          simp only [digits, true_and]
        · have bad : hexToBin (charAt s.chars pos) < 0 ∨ hexToBin (charAt s.chars (pos + 1)) < 0 := by
            rw [sign, sign, ← Classical.not_and_iff_not_or_not]
            exact digits
          simp only [if_pos bad]
          refine ⟨iff_of_false invalid ?_, iff_of_true (by omega) ?_⟩
          · rintro ⟨-, hex⟩
            exact digits ⟨hex pos le_rfl (by omega), hex (pos + 1) (by omega) (by omega)⟩
          · rintro ⟨even, -, hex⟩
            exact digits ⟨hex pos le_rfl inside, hex (pos + 1) (by omega) (by omega)⟩

end Miracle.Text
