import Mathlib.Data.List.Basic
import Mathlib.Data.Nat.Basic
import Mathlib.Logic.Function.Basic
import Miracle.Vsprintf.Decimal

/-! # Output into a bounded buffer

A cursor that counts what would be written, and a memory that takes only what is before the end.
Positions are counted from the start of the buffer; without an end the buffer is unbounded.
-/

namespace Miracle.Vsprintf

/-- The end of a buffer. -/
abbrev Bound := Option Nat

/-- `str < end`. -/
def before (p : Nat) : Bound → Bool
  | none => true
  | some e => p < e

/-- The cursor and the memory. -/
structure Out where
  pos : Nat
  mem : Nat → Char

variable {b : Bound}

/-- `if (buf < end) *buf = c; ++buf;` -/
def put (b : Bound) (o : Out) (c : Char) : Out :=
  ⟨o.pos + 1, if before o.pos b then Function.update o.mem o.pos c else o.mem⟩

def putIf (cond : Bool) (b : Bound) (o : Out) (c : Char) : Out := if cond then put b o c else o

/-- One character after the other. -/
def emit (b : Bound) (o : Out) (cs : List Char) : Out := cs.foldl (put b) o

@[simp] theorem emit_nil (o : Out) : emit b o [] = o := rfl

@[simp] theorem emit_cons (o : Out) (c : Char) (cs : List Char) : emit b o (c :: cs) = emit b (put b o c) cs := rfl

theorem emit_append (o : Out) (cs ds : List Char) : emit b o (cs ++ ds) = emit b (emit b o cs) ds := List.foldl_append

theorem emit_pos (o : Out) (cs : List Char) : (emit b o cs).pos = o.pos + cs.length := by
  induction cs generalizing o with
  | nil => rfl
  | cons c cs ih =>
      rw [emit_cons, ih, List.length_cons]
      change o.pos + 1 + cs.length = _
      omega

/-- The memory behind the cursor is the text, as far as it is before the end. -/
theorem emit_mem (o : Out) (cs : List Char) (i : Nat) : (emit b o cs).mem i =
    if before i b ∧ o.pos ≤ i then (cs[i - o.pos]?).getD (o.mem i) else o.mem i := by
  induction cs generalizing o with
  | nil => simp
  | cons c cs ih =>
      rw [emit_cons, ih]
      have pos : (put b o c).pos = o.pos + 1 := rfl
      have mem : (put b o c).mem i = if before i b ∧ i = o.pos then c else o.mem i := by
        rw [put]
        by_cases here : i = o.pos
        · subst here
          cases before o.pos b <;> simp
        · split <;> simp [here]
      rw [pos, mem]
      by_cases inside : before i b = true
      · rcases Nat.lt_trichotomy i o.pos with lt | rfl | gt
        · rw [if_neg (by omega), if_neg (by omega), if_neg (by omega)]
        · rw [if_neg (by omega), if_pos ⟨inside, rfl⟩, if_pos ⟨inside, Nat.le_refl _⟩, Nat.sub_self]
          rfl
        · have next : i - o.pos = i - (o.pos + 1) + 1 := by omega
          have other : ¬ (before i b = true ∧ i = o.pos) := fun both => absurd both.2 (Nat.ne_of_gt gt)
          rw [if_pos ⟨inside, gt⟩, if_neg other, if_pos ⟨inside, Nat.le_of_lt gt⟩, next, List.getElem?_cons_succ]
      · rw [if_neg (fun both => inside both.1), if_neg (fun both => inside both.1), if_neg (fun both => inside both.1)]

/-! ## Numbers

The conversion of a number with its sign, prefix and padding.  Widths and precisions are `s16`
values that the loops count down.
-/

/-- Reduction of a value to the range of an `s16`. -/
def s16 (n : Int) : Int := n.bmod (2 ^ 16)

/-- The bits of `printf_spec.flags`. -/
structure Flags where
  zeropad : Bool
  sign : Bool
  plus : Bool
  space : Bool
  left : Bool
  small : Bool
  special : Bool
  deriving DecidableEq, Repr

inductive FormatType where
  | none | width | precision | char | str | ptr | percentChar | invalid | longLong | ulong | long | ubyte | byte | ushort
  | short | uint | int | sizeT | ptrdiff
  deriving DecidableEq, Repr

structure PrintfSpec where
  type : FormatType
  flags : Flags
  base : Nat
  qualifier : Char
  fieldWidth : Int
  precision : Int
  deriving Repr

/-- `while (--w >= 0) put(c)`, for an `s16`: at most `2 ^ 15` rounds. -/
def padWhile (b : Bound) (c : Char) : Nat → Out → Int → Out × Int
  | 0, o, w => (o, w)
  | fuel + 1, o, w =>
      let w := s16 (w - 1)
      if 0 ≤ w then padWhile b c fuel (put b o c) w else (o, w)

def pad (b : Bound) (c : Char) (o : Out) (w : Int) : Out × Int := padWhile b c (2 ^ 15 + 1) o w

def padIf (cond : Bool) (b : Bound) (c : Char) (o : Out) (w : Int) : Out × Int := if cond then pad b c o w else (o, w)

/-- `while (i <= --precision) put('0')`. -/
def zeros (b : Bound) (i : Int) : Nat → Out → Int → Out
  | 0, o, _ => o
  | fuel + 1, o, p =>
      let p := s16 (p - 1)
      if i ≤ p then zeros b i fuel (put b o '0') p else o

/-- `digits[d] | locase`. -/
def digitOf (locase : Nat) (d : Nat) : Char := Char.ofNat ((("0123456789ABCDEF".toList).getD d '0').toNat ||| locase)

/-- The digits of a number in base 8 or 16, the least significant one first. -/
def shiftDigits (base shift locase : Nat) : Nat → Nat → List Char
  | 0, _ => []
  | fuel + 1, num =>
      let rest := num / 2 ^ shift
      digitOf locase (num % 256 &&& (base - 1)) :: if rest ≠ 0 then shiftDigits base shift locase fuel rest else []

/-- The contents of `tmp`. -/
def numberDigits (base locase num : Nat) : List Char :=
  if num < base then [digitOf locase num]
  else if base ≠ 10 then shiftDigits base (if base = 16 then 4 else 3) locase 64 num
  else putDec num

/-- The sign, what is left of the number, and the width. -/
def numberSign (flags : Flags) (num : Nat) (w : Int) : List Char × Nat × Int :=
  if flags.sign then
    if 2 ^ 63 ≤ num then (['-'], u64Sub 0 num, s16 (w - 1))
    else if flags.plus then (['+'], num, s16 (w - 1))
    else if flags.space then ([' '], num, s16 (w - 1))
    else ([], num, w)
  else ([], num, w)

def number (b : Bound) (o : Out) (num : Nat) (spec : PrintfSpec) : Out :=
  let needPfx := spec.flags.special && spec.base != 10
  let isZero := num == 0
  let locase := if spec.flags.small then 0x20 else 0
  let zeropad := spec.flags.zeropad && !spec.flags.left
  let (sign, num, w) := numberSign spec.flags num spec.fieldWidth
  let w := if needPfx then if spec.base = 16 then s16 (w - 2) else if !isZero then s16 (w - 1) else w else w
  let tmp := numberDigits spec.base locase num
  let i : Int := tmp.length
  let precision := if i > spec.precision then i else spec.precision
  let w := s16 (w - precision)
  let (o, w) := padIf (!(zeropad || spec.flags.left)) b ' ' o w
  let o := emit b o sign
  let o := putIf (needPfx && (spec.base == 16 || !isZero)) b o '0'
  let o := putIf (needPfx && spec.base == 16) b o (Char.ofNat ('X'.toNat ||| locase))
  let (o, w) := padIf (!spec.flags.left) b (if zeropad then '0' else ' ') o w
  let o := zeros b i (2 ^ 15 + 1) o precision
  let o := emit b o tmp.reverse
  (pad b ' ' o w).1

/-! ## The text of a number -/

/-- How often a loop that counts the width down goes round. -/
def padCount (w : Int) : Nat := (s16 (w - 1) + 1).toNat

/-- The width after such a loop. -/
def padRest (w : Int) : Int := if 0 ≤ s16 (w - 1) then -1 else s16 (w - 1)

theorem s16_bounds (n : Int) : -2 ^ 15 ≤ s16 n ∧ s16 n < 2 ^ 15 := by
  have low := @Int.le_bmod n (2 ^ 16) (by decide)
  have high := @Int.bmod_lt n (2 ^ 16) (by decide)
  rw [s16]
  omega

theorem s16_of {n : Int} (low : -2 ^ 15 ≤ n) (high : n < 2 ^ 15) : s16 n = n :=
  Int.bmod_eq_of_le (by omega) (by omega)

theorem padCount_of {w : Int} (low : -2 ^ 15 < w) (high : w < 2 ^ 15) : padCount w = w.toNat := by
  rw [padCount, s16_of (by omega) (by omega)]
  omega

theorem padRest_of {w : Int} (low : -2 ^ 15 < w) (high : w < 2 ^ 15) : padRest w = min (w - 1) (-1) := by
  rw [padRest, s16_of (by omega) (by omega)]
  split <;> omega

/-- A width that was counted down pads no more. -/
theorem padCount_padRest {w : Int} (low : -2 ^ 15 + 1 < w) (high : w < 2 ^ 15) : padCount (padRest w) = 0 := by
  rw [padRest_of (by omega) high, padCount_of (by omega) (by omega)]
  omega

/-- A loop with fuel for every round writes its padding. -/
theorem padWhile_eq (b : Bound) (c : Char) {fuel : Nat} {o : Out} {w : Int} (enough : padCount w < fuel) :
    padWhile b c fuel o w = (emit b o (List.replicate (padCount w) c), padRest w) := by
  induction fuel generalizing o w with
  | zero => exact absurd enough (Nat.not_lt_zero _)
  | succ fuel ih =>
      rw [padWhile]
      by_cases more : 0 ≤ s16 (w - 1)
      · have bounds := s16_bounds (w - 1)
        have next : s16 (s16 (w - 1) - 1) = s16 (w - 1) - 1 := s16_of (by omega) (by omega)
        have count : padCount w = padCount (s16 (w - 1)) + 1 := by
          simp only [padCount, next]
          omega
        have rest : padRest (s16 (w - 1)) = padRest w := by
          simp only [padRest, next]
          split <;> omega
        rw [if_pos more, ih (by omega), rest, count, List.replicate_succ, emit_cons]
      · have none : padCount w = 0 := by
          simp only [padCount]
          omega
        rw [if_neg more, none, padRest, if_neg more]
        rfl

theorem pad_eq (b : Bound) (c : Char) (o : Out) (w : Int) :
    pad b c o w = (emit b o (List.replicate (padCount w) c), padRest w) := by
  refine padWhile_eq b c ?_
  have bounds := s16_bounds (w - 1)
  simp only [padCount]
  omega

def padText (cond : Bool) (c : Char) (w : Int) : List Char := if cond then List.replicate (padCount w) c else []

theorem padIf_eq (cond : Bool) (b : Bound) (c : Char) (o : Out) (w : Int) :
    padIf cond b c o w = (emit b o (padText cond c w), if cond then padRest w else w) := by
  cases cond with
  | false => rfl
  | true => exact pad_eq b c o w

theorem putIf_eq (cond : Bool) (b : Bound) (o : Out) (c : Char) : putIf cond b o c = emit b o (if cond then [c] else []) := by
  cases cond <;> rfl

theorem zeros_eq (b : Bound) {i p : Int} {fuel : Nat} {o : Out} (pos : 0 ≤ i) (le : i ≤ p) (word : p < 2 ^ 15)
    (enough : p - i < fuel) : zeros b i fuel o p = emit b o (List.replicate (p - i).toNat '0') := by
  induction fuel generalizing o p with
  | zero => exact absurd enough (by omega)
  | succ fuel ih =>
      rw [zeros]
      simp only [s16_of (by omega : -2 ^ 15 ≤ p - 1) (by omega)]
      by_cases more : i ≤ p - 1
      · have count : (p - i).toNat = (p - 1 - i).toNat + 1 := by omega
        rw [if_pos more, ih more (by omega) (by omega), count, List.replicate_succ, emit_cons]
      · have count : (p - i).toNat = 0 := by omega
        rw [if_neg more, count]
        rfl

/-- The text of a number, wherever it is written. -/
def numberText (num : Nat) (spec : PrintfSpec) : List Char :=
  let needPfx := spec.flags.special && spec.base != 10
  let isZero := num == 0
  let locase := if spec.flags.small then 0x20 else 0
  let zeropad := spec.flags.zeropad && !spec.flags.left
  let (sign, num, w) := numberSign spec.flags num spec.fieldWidth
  let w := if needPfx then if spec.base = 16 then s16 (w - 2) else if !isZero then s16 (w - 1) else w else w
  let tmp := numberDigits spec.base locase num
  let precision := if (tmp.length : Int) > spec.precision then (tmp.length : Int) else spec.precision
  let w := s16 (w - precision)
  let front := padText (!(zeropad || spec.flags.left)) ' ' w
  let w := if !(zeropad || spec.flags.left) then padRest w else w
  let fill := padText (!spec.flags.left) (if zeropad then '0' else ' ') w
  let w := if !spec.flags.left then padRest w else w
  front ++ sign ++ (if needPfx && (spec.base == 16 || !isZero) then ['0'] else []) ++
    (if needPfx && spec.base == 16 then [Char.ofNat ('X'.toNat ||| locase)] else []) ++
    fill ++ List.replicate (precision - tmp.length).toNat '0' ++ tmp.reverse ++ List.replicate (padCount w) ' '

theorem shiftDigits_length (base shift locase fuel num : Nat) : (shiftDigits base shift locase fuel num).length ≤ fuel := by
  induction fuel generalizing num with
  | zero => rfl
  | succ fuel ih =>
      rw [shiftDigits, List.length_cons]
      split
      · exact Nat.succ_le_succ (ih _)
      · exact Nat.succ_le_succ (Nat.zero_le _)

theorem decimalDigits_length {n : Nat} (word : n < 2 ^ 64) : (decimalDigits n).length ≤ 20 := by
  rw [decimalDigits]
  split
  · decide
  · rw [Nat.digits_length_le_iff (by decide)]
    exact word.trans (by decide)

/-- The digits fit in `tmp`. -/
theorem numberDigits_length (base locase : Nat) {num : Nat} (word : num < 2 ^ 64) :
    (numberDigits base locase num).length ≤ 64 := by
  rw [numberDigits]
  split
  · exact Nat.succ_le_succ (Nat.zero_le _)
  · split
    · exact shiftDigits_length _ _ _ _ _
    · rw [putDec_eq, List.length_map]
      exact (decimalDigits_length word).trans (by decide)

theorem numberSign_word {flags : Flags} {num : Nat} {w : Int} (word : num < 2 ^ 64) : (numberSign flags num w).2.1 < 2 ^ 64 := by
  rw [numberSign]
  split
  · split
    · exact Nat.mod_lt _ (by decide)
    · split
      · exact word
      · split <;> exact word
  · exact word

/-- A number writes its text. -/
theorem number_eq (b : Bound) (o : Out) {num : Nat} {spec : PrintfSpec} (word : num < 2 ^ 64) (precision : spec.precision < 2 ^ 15) :
    number b o num spec = emit b o (numberText num spec) := by
  have small := @numberSign_word spec.flags num spec.fieldWidth word
  unfold number numberText
  cases signIs : numberSign spec.flags num spec.fieldWidth with
  | mk sign rest =>
      obtain ⟨num', w⟩ := rest
      rw [signIs] at small
      have digits := numberDigits_length spec.base (if spec.flags.small then 0x20 else 0) small
      have fill (tmp : List Char) (digits : tmp.length ≤ 64) (o : Out) : zeros b tmp.length (2 ^ 15 + 1) o
          (if (tmp.length : Int) > spec.precision then (tmp.length : Int) else spec.precision) =
          emit b o (List.replicate ((if (tmp.length : Int) > spec.precision then (tmp.length : Int) else spec.precision) -
            tmp.length).toNat '0') := by
        refine zeros_eq b (by omega) ?_ ?_ ?_ <;> split <;> omega
      simp only [padIf_eq, putIf_eq, pad_eq, fill _ digits, emit_append]

end Miracle.Vsprintf
