import Miracle.Lib.Buffer
import Miracle.Text.Hexdump

/-! # Escapes read back

`string_unescape` of `lib/string_helpers.c`.  The source and the destination lie in one memory, and
the text may be put over the string that it is read from.  An access outside the memory fails.
-/

namespace Miracle.Text

open Strtox Vsprintf Buffer
open Bitmap (hexToBin)

/-! ## The code -/

/-- The flags of `string_unescape`. -/
structure Unescape where
  space : Bool
  octal : Bool
  hex : Bool
  special : Bool

/-- `UNESCAPE_ANY` -/
def unescapeAny : Unescape := ⟨true, true, true, true⟩

/-- A switch over one character: what is written for it, and where the source goes on. -/
def unescapeOne (table : List (Char × Char)) (m : List Char) (src : Nat) : Option (Option (Char × Nat)) := do
  let q ← m[src]?
  some ((table.lookup q).map (·, src + 1))

def spaceTable : List (Char × Char) := [('n', '\n'), ('r', '\r'), ('t', '\t'), ('v', '\x0b'), ('f', '\x0c')]

def specialTable : List (Char × Char) := [('"', '"'), ('\\', '\\'), ('a', '\x07'), ('e', '\x1b')]

def unescapeSpace (m : List Char) (src : Nat) : Option (Option (Char × Nat)) := unescapeOne spaceTable m src

def unescapeSpecial (m : List Char) (src : Nat) : Option (Option (Char × Nat)) := unescapeOne specialTable m src

def isodigit (c : Char) : Bool := '0' ≤ c ∧ c ≤ '7'

/-- The loop of `unescape_octal`. -/
def octalDigits : Nat → List Char → Nat → Nat → Nat → Option (Nat × Nat)
  | 0, _, _, _, _ => none
  | rounds + 1, m, src, q, num =>
    if num < 32 then do
      let c ← m[q]?
      if isodigit c ∧ q - src < 3 then
        octalDigits rounds m src (q + 1) (((num <<< 3) % 2 ^ 8 + (c.toNat &&& 7)) % 2 ^ 8)
      else some (num, q)
    else some (num, q)

def unescapeOctal (m : List Char) (src : Nat) : Option (Option (Char × Nat)) := do
  let c ← m[src]?
  if isodigit c then
    let (num, q) ← octalDigits 3 m src (src + 1) (c.toNat &&& 7)
    some (some (Char.ofNat num, q))
  else some none

def unescapeHex (m : List Char) (src : Nat) : Option (Option (Char × Nat)) := do
  let c ← m[src]?
  if c ≠ 'x' then some none
  else
    let d ← m[src + 1]?
    let digit := hexToBin d
    if digit < 0 then some none
    else
      let num := digit.toNat
      let d ← m[src + 2]?
      let digit := hexToBin d
      if 0 ≤ digit then some (some (Char.ofNat ((num <<< 4) % 2 ^ 8 ||| digit.toNat), src + 3))
      else some (some (Char.ofNat num, src + 2))

/-- `flags & flag && unescape(&src, &out)`, and the next attempt when it does not succeed. -/
def attempt {α : Type} (flag : Bool) (unescape next : Option (Option α)) : Option (Option α) :=
  if flag then do
    let done ← unescape
    if done.isSome then some done else next
  else next

/-- The attempts at what follows a backslash. -/
def unescapeAt (flags : Unescape) (m : List Char) (src : Nat) : Option (Option (Char × Nat)) :=
  attempt flags.space (unescapeSpace m src)
    (attempt flags.octal (unescapeOctal m src)
      (attempt flags.hex (unescapeHex m src)
        (attempt flags.special (unescapeSpecial m src) (some none))))

/-- `src[0] == '\\' && src[1] != '\0' && size > 1` -/
def startsEscape (m : List Char) (src : Nat) (c : Char) (size : Nat) : Option Bool :=
  if c = '\\' then do
    let d ← m[src + 1]?
    some (d ≠ nul ∧ 1 < size)
  else some false

/-- The loop of `string_unescape`, with `size` as it is before the test of the loop. -/
def unescapeLoop (flags : Unescape) : Nat → List Char → Nat → Nat → Nat → Option (List Char × Nat)
  | 0, _, _, _, _ => none
  | rounds + 1, m, src, out, size => do
    let c ← m[src]?
    if c = nul then some (m, out)
    else
      let size := u64Sub size 1
      if size = 0 then some (m, out)
      else
        if ← startsEscape m src c size then do
          let size := u64Sub size 1
          match ← unescapeAt flags m (src + 1) with
          | some (e, src) => do
            let m ← write m out e
            unescapeLoop flags rounds m src (out + 1) size
          | none => do
            let m ← write m out '\\'
            let d ← m[src + 1]?
            let m ← write m (out + 1) d
            unescapeLoop flags rounds m (src + 2) (out + 2) size
        else do
          let m ← write m out c
          unescapeLoop flags rounds m (src + 1) (out + 1) size

/-- `string_unescape`; the value that it returns is an `int`. -/
def stringUnescape (flags : Unescape) (rounds : Nat) (m : List Char) (src dst size : Nat) : Option (List Char × Int) := do
  let (m, out) ← unescapeLoop flags rounds m src dst size
  let m ← write m out nul
  some (m, ((out : Int) - dst).bmod (2 ^ 32))

/-! ## What an escape stands for -/

def octalValue (c : Char) : Nat := c.toNat - 48

/-- The value and the number of the octal digits behind `num`, up to `n` while the value stays that of a byte. -/
def octalRest : Nat → Nat → List Char → Nat × Nat
  | 0, num, _ => (num, 0)
  | _, num, [] => (num, 0)
  | n + 1, num, c :: cs =>
    if num < 32 ∧ isodigit c then
      let (value, k) := octalRest n (8 * num + octalValue c) cs
      (value, k + 1)
    else (num, 0)

/-- One to three octal digits. -/
def decodeOctal : List Char → Option (Char × Nat)
  | [] => none
  | c :: cs =>
    if isodigit c then
      let (value, k) := octalRest 2 (octalValue c) cs
      some (Char.ofNat value, k + 1)
    else none

/-- An `x` and one or two hexadecimal digits. -/
def decodeHex : List Char → Option (Char × Nat)
  | x :: a :: ds =>
    if x = 'x' ∧ isxdigit a then
      match ds.head?.filter isxdigit with
      | none => some (Char.ofNat (hexToBin a).toNat, 2)
      | some b => some (Char.ofNat (16 * (hexToBin a).toNat + (hexToBin b).toNat), 3)
    else none
  | _ => none

def decodeOf (table : List (Char × Char)) : List Char → Option (Char × Nat)
  | [] => none
  | c :: _ => (table.lookup c).map (·, 1)

/-- The character for what is behind a backslash, and how many characters stand for it. -/
def decodeOne (flags : Unescape) (cs : List Char) : Option (Char × Nat) :=
  (if flags.space then decodeOf spaceTable cs else none) <|>
    (if flags.octal then decodeOctal cs else none) <|>
    (if flags.hex then decodeHex cs else none) <|>
    (if flags.special then decodeOf specialTable cs else none)

/-- The text of the first piece of a string, and what is behind it.  A backslash stays when no escape follows it. -/
def piece (flags : Unescape) (c : Char) (cs : List Char) : List Char × List Char :=
  if c = '\\' then
    match decodeOne flags cs with
    | some (e, k) => ([e], cs.drop k)
    | none => (c :: cs.take 1, cs.drop 1)
  else ([c], cs)

theorem piece_behind (flags : Unescape) (c : Char) (cs : List Char) : (piece flags c cs).2.length ≤ cs.length := by
  unfold piece
  split
  · split <;> exact (List.drop_sublist _ _).length_le
  · exact Nat.le_refl _

/-- The text that a string stands for. -/
def decoded (flags : Unescape) : List Char → List Char
  | [] => []
  | c :: cs => (piece flags c cs).1 ++ decoded flags (piece flags c cs).2
termination_by s => s.length
decreasing_by exact Nat.lt_succ_of_le (piece_behind flags c cs)

/-- The part of it that there is room for: an escape takes two places. -/
def unescaped (flags : Unescape) (size : Nat) : List Char → List Char
  | [] => []
  | c :: cs =>
    let size := u64Sub size 1
    if size = 0 then []
    else if c = '\\' ∧ cs ≠ [] ∧ 1 < size then (piece flags c cs).1 ++ unescaped flags (u64Sub size 1) (piece flags c cs).2
    else c :: unescaped flags size cs
termination_by s => s.length
decreasing_by
  · exact Nat.lt_succ_of_le (piece_behind flags c cs)
  · exact Nat.lt_succ_self _

/-! ## One escape -/

section

variable {m cs : List Char} {src : Nat}

theorem isodigit_nul : isodigit nul = false := by decide

theorem octalValue_lt {c : Char} (digit : isodigit c = true) : octalValue c < 8 ∧ c.toNat &&& 7 = octalValue c := by
  have codes : '0'.toNat = 48 ∧ '7'.toNat = 55 := by decide
  have le (a b : Char) : a ≤ b ↔ a.toNat ≤ b.toNat := Iff.rfl
  simp only [isodigit, le, codes.1, codes.2, decide_eq_true_eq] at digit
  have all : ∀ n ≤ 7, (48 + n) &&& 7 = n := by decide
  have split : c.toNat = 48 + (c.toNat - 48) := by omega
  refine ⟨by unfold octalValue; omega, ?_⟩
  rw [split, all _ (by omega), octalValue]

theorem unescapeOne_spec {table : List (Char × Char)} (plain : table.lookup nul = none) (has : HasAt m src (cs ++ [nul])) :
    unescapeOne table m src = some ((decodeOf table cs).map fun d => (d.1, src + d.2)) := by
  cases cs with
  | nil =>
      rw [List.nil_append] at has
      simp [unescapeOne, has.head, plain, decodeOf]
  | cons c cs =>
      rw [List.cons_append] at has
      simp only [unescapeOne, has.head, decodeOf, Option.bind_eq_bind, Option.bind_some, Option.map_map]
      rfl

theorem octalDigits_spec {q num : Nat} (n rounds : Nat) (has : HasAt m q (cs ++ [nul])) (enough : n < rounds) (last : q + n = src + 3) :
    octalDigits rounds m src q num = some ((octalRest n num cs).1, q + (octalRest n num cs).2) := by
  induction n generalizing rounds cs q num with
  | zero =>
      obtain ⟨rounds, rfl⟩ := Nat.exists_eq_succ_of_ne_zero (Nat.ne_zero_of_lt enough)
      have far : ¬q - src < 3 := by omega
      obtain ⟨c, read⟩ : ∃ c, m[q]? = some c := by
        cases cs with
        | nil => exact ⟨_, has.head⟩
        | cons c cs => exact ⟨c, has.head⟩
      simp [octalDigits, octalRest, read, far]
  | succ n ih =>
      obtain ⟨rounds, rfl⟩ := Nat.exists_eq_succ_of_ne_zero (Nat.ne_zero_of_lt enough)
      cases cs with
      | nil => simp [octalDigits, octalRest, has.head, isodigit_nul]
      | cons c cs =>
          rw [List.cons_append] at has
          by_cases taken : num < 32 ∧ isodigit c = true
          · obtain ⟨lt, same⟩ := octalValue_lt taken.2
            have value : ((num <<< 3) % 2 ^ 8 + (c.toNat &&& 7)) % 2 ^ 8 = 8 * num + octalValue c := by
              rw [same, Nat.shiftLeft_eq]
              omega
            have few : q - src < 3 := by omega
            rw [octalDigits, octalRest, if_pos taken, if_pos taken.1, has.head]
            simp only [Option.bind_eq_bind, Option.bind_some]
            rw [if_pos ⟨taken.2, few⟩, value, ih rounds has.tail (Nat.lt_of_succ_lt_succ enough) (by omega), Nat.add_assoc, Nat.add_comm 1]
          · simp only [octalDigits, octalRest, if_neg taken, has.head]
            by_cases digit : isodigit c = true
            · exact if_neg fun small => taken ⟨small, digit⟩
            · simp [digit]

theorem unescapeOctal_spec (has : HasAt m src (cs ++ [nul])) :
    unescapeOctal m src = some ((decodeOctal cs).map fun d => (d.1, src + d.2)) := by
  cases cs with
  | nil => simp [unescapeOctal, has.head, isodigit_nul, decodeOctal]
  | cons c cs =>
      rw [List.cons_append] at has
      rw [unescapeOctal, decodeOctal, has.head]
      simp only [Option.bind_eq_bind, Option.bind_some]
      by_cases digit : isodigit c = true
      · rw [if_pos digit, if_pos digit, octalDigits_spec 2 3 has.tail (by decide) (by omega), (octalValue_lt digit).2]
        simp [Nat.add_assoc, Nat.add_comm 1]
      · rw [if_neg digit, if_neg digit]
        rfl

theorem hexToBin_lt (c : Char) : (hexToBin c).toNat < 16 := by
  have le (a b : Char) : a ≤ b ↔ a.toNat ≤ b.toNat := Iff.rfl
  have codes : '0'.toNat = 48 ∧ '9'.toNat = 57 ∧ 'a'.toNat = 97 ∧ 'f'.toNat = 102 := by decide
  obtain ⟨zero, nine, lowerA, lowerF⟩ := codes
  simp only [hexToBin, le, zero, nine, lowerA, lowerF]
  split_ifs <;> omega

theorem hexByte {hi lo : Nat} (high : hi < 16) (low : lo < 16) : hi <<< 4 % 256 ||| lo = 16 * hi + lo := by
  have shifted : hi <<< 4 % 256 = hi <<< 4 := by
    rw [Nat.shiftLeft_eq]
    omega
  rw [shifted, ← Nat.shiftLeft_add_eq_or_of_lt low, Nat.shiftLeft_eq, Nat.mul_comm]

theorem unescapeHex_spec (has : HasAt m src (cs ++ [nul])) :
    unescapeHex m src = some ((decodeHex cs).map fun d => (d.1, src + d.2)) := by
  have sign (c : Char) : hexToBin c < 0 ↔ ¬isxdigit c = true := by rw [← hexToBin_nonneg, not_le]
  have stop : hexToBin nul < 0 := by decide
  cases cs with
  | nil => simp [unescapeHex, has.head, decodeHex, nul]
  | cons x cs =>
      cases cs with
      | nil =>
          rw [List.cons_append] at has
          simp [unescapeHex, has.head, has.tail.head, stop, decodeHex]
      | cons a ds =>
          simp only [List.cons_append] at has
          by_cases start : x = 'x' ∧ isxdigit a = true
          · have nonneg := (hexToBin_nonneg a).mpr start.2
            simp only [unescapeHex, has.head, has.tail.head, Option.bind_eq_bind, Option.bind_some, start.1, decodeHex, start.2, not_lt.mpr nonneg]
            cases ds with
            | nil => simp [has.tail.tail.head, not_le.mpr stop]
            | cons b ds =>
                simp only [List.cons_append] at has
                by_cases digit : isxdigit b = true
                · have value := hexByte (hexToBin_lt a) (hexToBin_lt b)
                  simp [has.tail.tail.head, (hexToBin_nonneg b).mpr digit, value, Option.filter, digit]
                · simp [has.tail.tail.head, not_le.mpr ((sign b).mpr digit), Option.filter, digit]
          · rw [decodeHex, if_neg start, unescapeHex, has.head, has.tail.head]
            by_cases is_ : x = 'x'
            · have other : ¬isxdigit a = true := fun digit => start ⟨is_, digit⟩
              simp [is_, (sign a).mpr other]
            · simp [is_]

theorem attempt_some {α β : Type} {flag : Bool} {a b : Option β} {f : β → α} :
    attempt flag (some (a.map f)) (some (b.map f)) = some (((if flag then a else none) <|> b).map f) := by
  cases flag <;> cases a <;> rfl

/-- The attempts read inside the string and find what the escape stands for. -/
theorem unescapeAt_spec {flags : Unescape} (has : HasAt m src (cs ++ [nul])) :
    unescapeAt flags m src = some ((decodeOne flags cs).map fun d => (d.1, src + d.2)) := by
  have last : (none : Option (Char × Nat)) = (none : Option (Char × Nat)).map fun d => (d.1, src + d.2) := rfl
  have noMore (a : Option (Char × Nat)) : (a <|> none) = a := by cases a <;> rfl
  rw [unescapeAt, unescapeSpace, unescapeSpecial, unescapeOne_spec (by decide) has, unescapeOctal_spec has, unescapeHex_spec has,
    unescapeOne_spec (by decide) has, last, attempt_some, attempt_some, attempt_some, attempt_some, noMore]
  rfl

theorem decodeOf_taken {table : List (Char × Char)} {e : Char} {k : Nat} (dec : decodeOf table cs = some (e, k)) :
    0 < k ∧ k ≤ cs.length := by
  cases cs with
  | nil => cases dec
  | cons c cs =>
      obtain ⟨_, -, same⟩ := Option.map_eq_some_iff.mp dec
      cases same
      simp

theorem octalRest_le (n num : Nat) (cs : List Char) : (octalRest n num cs).2 ≤ cs.length := by
  fun_induction octalRest n num cs with
  | case1 | case2 => exact Nat.zero_le _
  | case3 n num c cs taken value k rest ih =>
      rw [rest] at ih
      exact Nat.succ_le_succ ih
  | case4 => exact Nat.zero_le _

theorem decodeOctal_taken {e : Char} {k : Nat} (dec : decodeOctal cs = some (e, k)) : 0 < k ∧ k ≤ cs.length := by
  cases cs with
  | nil => cases dec
  | cons c cs =>
      rw [decodeOctal] at dec
      split at dec
      · cases dec
        exact ⟨Nat.succ_pos _, Nat.succ_le_succ (octalRest_le _ _ _)⟩
      · cases dec

theorem decodeHex_taken {e : Char} {k : Nat} (dec : decodeHex cs = some (e, k)) : 0 < k ∧ k ≤ cs.length := by
  unfold decodeHex at dec
  split at dec
  case h_2 => cases dec
  case h_1 x a ds =>
      split at dec
      · split at dec
        · cases dec
          simp
        case h_2 b second =>
            cases ds with
            | nil => cases second
            | cons =>
                cases dec
                simp
      · cases dec

theorem decodeOne_taken {flags : Unescape} {e : Char} {k : Nat} (dec : decodeOne flags cs = some (e, k)) : 0 < k ∧ k ≤ cs.length := by
  simp only [decodeOne, Option.orElse_eq_orElse, Option.orElse_eq_or, Option.or_eq_some_iff, Option.ite_none_right_eq_some] at dec
  rcases dec with ⟨-, dec⟩ | ⟨-, ⟨-, dec⟩ | ⟨-, ⟨-, dec⟩ | ⟨-, -, dec⟩⟩⟩
  · exact decodeOf_taken dec
  · exact decodeOctal_taken dec
  · exact decodeHex_taken dec
  · exact decodeOf_taken dec

end

/-! ## The whole string -/

section

variable {flags : Unescape} {s m : List Char} {src out size : Nat}

theorem decodeOne_nil : decodeOne flags [] = none := by
  obtain ⟨space, octal, hex, special⟩ := flags
  cases space <;> cases octal <;> cases hex <;> cases special <;> rfl

theorem piece_escape {cs : List Char} {e : Char} {k : Nat} (dec : decodeOne flags cs = some (e, k)) :
    piece flags '\\' cs = ([e], cs.drop k) := by
  rw [piece, if_pos rfl, dec]

theorem piece_keep {cs : List Char} (dec : decodeOne flags cs = none) : piece flags '\\' cs = ('\\' :: cs.take 1, cs.drop 1) := by
  rw [piece, if_pos rfl, dec]

theorem piece_plain {c : Char} {cs : List Char} (plain : ¬(c = '\\' ∧ cs ≠ [])) : piece flags c cs = ([c], cs) := by
  by_cases is_ : c = '\\'
  · have last : cs = [] := by_contra fun more => plain ⟨is_, more⟩
    rw [is_, last, piece_keep decodeOne_nil]
    rfl
  · exact if_neg is_

/-- An escape takes two places at least in the string, and no more than two in the text. -/
theorem piece_spec (flags : Unescape) {cs : List Char} (more : cs ≠ []) : ∃ k, 0 < k ∧ k ≤ cs.length ∧
    (piece flags '\\' cs).2 = cs.drop k ∧ (piece flags '\\' cs).1.length ≤ 2 := by
  cases dec : decodeOne flags cs with
  | some d =>
      obtain ⟨pos, inside⟩ := decodeOne_taken dec
      rw [piece_escape dec]
      exact ⟨d.2, pos, inside, rfl, by simp⟩
  | none =>
      rw [piece_keep dec]
      exact ⟨1, Nat.one_pos, List.length_pos_iff.mpr more, rfl, Nat.succ_le_succ (List.length_take_le _ _)⟩

theorem decoded_escape {cs : List Char} {e : Char} {k : Nat} (dec : decodeOne flags cs = some (e, k)) :
    decoded flags ('\\' :: cs) = e :: decoded flags (cs.drop k) := by
  rw [decoded, piece_escape dec]
  rfl

theorem decoded_plain {c : Char} {cs : List Char} (plain : ¬(c = '\\' ∧ cs ≠ [])) : decoded flags (c :: cs) = c :: decoded flags cs := by
  rw [decoded, piece_plain plain]
  rfl

/-- What a limit leaves of a text: a part from its start, perhaps with the backslash of an escape that
    there is no room for. -/
def CutOf (text whole : List Char) : Prop := text <+: whole ∨ ∃ t, t <+: whole ∧ text = t ++ ['\\']

theorem CutOf.append {text whole : List Char} (h : CutOf text whole) (front : List Char) : CutOf (front ++ text) (front ++ whole) := by
  cases h with
  | inl h => exact .inl ((List.prefix_append_right_inj front).mpr h)
  | inr h =>
      obtain ⟨t, h, rfl⟩ := h
      exact .inr ⟨front ++ t, (List.prefix_append_right_inj front).mpr h, (List.append_assoc ..).symm⟩

theorem u64Sub_one (pos : 0 < size) (word : size ≤ 2 ^ 64) : u64Sub size 1 = size - 1 := by
  unfold u64Sub
  omega

/-- What is written for `s`, whose text is `whole`, when there are `size` places. -/
structure Limited (size : Nat) (s text whole : List Char) : Prop where
  le : text.length ≤ s.length
  lt : text.length < size
  cut : CutOf text whole
  enough : s.length < size → text = whole

theorem unescaped_limited (flags : Unescape) (s : List Char) (pos : 0 < size) (word : size ≤ 2 ^ 64) : Limited size s (unescaped flags size s) (decoded flags s) := by
  have one := u64Sub_one pos word
  fun_induction unescaped flags size s with
  | case1 size => exact ⟨Nat.le_refl _, pos, .inl List.nil_prefix, fun _ => by rw [decoded]⟩
  | case2 size c cs less none_ => exact ⟨Nat.zero_le _, pos, .inl List.nil_prefix, fun room => by rw [List.length_cons] at room; omega⟩
  | case3 size c cs less some_ escape ih =>
      have two : u64Sub less 1 = less - 1 := u64Sub_one (by omega) (by omega)
      obtain ⟨k, read, inside, behind, short⟩ := piece_spec flags escape.2.1
      rw [escape.1] at ih ⊢
      rw [behind] at ih ⊢
      obtain ⟨le, lt, cut, enough⟩ := ih (by omega) (by omega) (u64Sub_one (by omega) (by omega))
      rw [List.length_drop] at le enough
      rw [decoded, behind]
      refine ⟨?_, ?_, cut.append _, fun room => ?_⟩
      · rw [List.length_append, List.length_cons]
        omega
      · rw [List.length_append]
        omega
      · rw [List.length_cons] at room
        rw [enough (by omega)]
  | case4 size c cs less some_ other ih =>
      obtain ⟨le, lt, cut, enough⟩ := ih (by omega) (by omega) (u64Sub_one (by omega) (by omega))
      by_cases escape : c = '\\' ∧ cs ≠ []
      · -- The backslash takes the last place.
        have last : less = 1 := by
          have small : ¬1 < less := fun large => other ⟨escape.1, escape.2, large⟩
          omega
        have more := List.length_pos_iff.mpr escape.2
        have empty : unescaped flags less cs = [] := List.eq_nil_of_length_eq_zero (by omega)
        rw [empty, escape.1]
        refine ⟨?_, ?_, .inr ⟨[], List.nil_prefix, rfl⟩, fun room => ?_⟩
        · exact Nat.succ_le_succ (Nat.zero_le _)
        · rw [List.length_singleton]
          omega
        · rw [List.length_cons] at room
          omega
      · rw [decoded_plain escape]
        exact ⟨Nat.succ_le_succ le, by rw [List.length_cons]; omega, cut.append [c],
          fun room => by rw [enough (by rw [List.length_cons] at room; omega)]⟩

/-- No size is no limit. -/
theorem unescaped_zero : unescaped flags 0 s = unescaped flags (2 ^ 64) s := by
  have same : u64Sub 0 1 = u64Sub (2 ^ 64) 1 := rfl
  cases s with
  | nil => rw [unescaped, unescaped]
  | cons c cs => rw [unescaped, unescaped, same]

theorem unescaped_text (flags : Unescape) (s : List Char) (word : size < 2 ^ 64) (short : s.length < 2 ^ 31) :
    (unescaped flags size s).length ≤ s.length ∧ (size ≠ 0 → (unescaped flags size s).length < size) ∧
      CutOf (unescaped flags size s) (decoded flags s) ∧ (size = 0 ∨ s.length < size → unescaped flags size s = decoded flags s) := by
  rcases Nat.eq_zero_or_pos size with rfl | pos
  · obtain ⟨le, -, cut, enough⟩ := unescaped_limited flags s (by decide : 0 < 2 ^ 64) (Nat.le_refl _)
    rw [unescaped_zero]
    exact ⟨le, fun some_ => absurd rfl some_, cut, fun _ => enough (by omega)⟩
  · obtain ⟨le, lt, cut, enough⟩ := unescaped_limited flags s pos word.le
    exact ⟨le, fun _ => lt, cut, fun room => enough (room.resolve_left (Nat.ne_of_gt pos))⟩

/-! ## In memory -/

/-- The text is written over the string or beside it. -/
def Apart (out src length : Nat) : Prop := out ≤ src ∨ src + length < out

/-- What one round of the loop does: a text is written that is no longer than what has been read. -/
theorem unescapeLoop_round (flags : Unescape) (rounds : Nat) {c : Char} {cs : List Char} (noNul : nul ∉ c :: cs) (has : HasAt m src (c :: cs ++ [nul]))
    (apart : Apart out src (cs.length + 1)) (go : u64Sub size 1 ≠ 0) : ∃ text k less, k ≤ cs.length ∧ text.length ≤ k + 1 ∧
      unescaped flags size (c :: cs) = text ++ unescaped flags less (cs.drop k) ∧ (out + text.length < m.length →
        unescapeLoop flags (rounds + 1) m src out size = unescapeLoop flags rounds (overwrite m out text) (src + 1 + k) (out + text.length) less) := by
  have some_ : c ≠ nul := fun same => noNul (same ▸ List.mem_cons_self)
  have tail : HasAt m (src + 1) (cs ++ [nul]) := has.tail
  have kept (e : Char) (inside : out + 1 ≤ m.length) : HasAt (overwrite m out [e]) (src + 1) (cs ++ [nul]) := by
    apply tail.overwrite inside
    simp only [List.length_append, List.length_singleton]
    unfold Apart at apart
    omega
  have test : startsEscape m src c (u64Sub size 1) = some (decide (c = '\\' ∧ cs ≠ [] ∧ 1 < u64Sub size 1)) := by
    rw [startsEscape]
    cases cs with
    | nil => simp [tail.head]
    | cons d ds =>
        have next : d ≠ nul := fun same => noNul (same ▸ List.mem_cons_of_mem _ List.mem_cons_self)
        by_cases is_ : c = '\\'
        · simp [is_, tail.head, next]
        · simp [is_]
  by_cases escape : c = '\\' ∧ cs ≠ [] ∧ 1 < u64Sub size 1
  · rw [decide_eq_true escape] at test
    obtain ⟨rfl, more, room⟩ := escape
    obtain ⟨d, ds, rfl⟩ := List.exists_cons_of_ne_nil more
    cases dec : decodeOne flags (d :: ds) with
    | some e =>
        obtain ⟨e, k⟩ := e
        refine ⟨[e], k, u64Sub (u64Sub size 1) 1, (decodeOne_taken dec).2, Nat.succ_le_succ (Nat.zero_le _), ?_, fun inside => ?_⟩
        · rw [unescaped, if_neg go, if_pos ⟨rfl, more, room⟩, piece_escape dec]
        · rw [unescapeLoop, has.head]
          simp only [Option.bind_eq_bind, Option.bind_some, if_neg some_, if_neg go, test, unescapeAt_spec has.tail, dec, if_true,
            Option.map_some, write_eq e (Nat.lt_of_succ_lt inside)]
          rfl
    | none =>
        refine ⟨['\\', d], 1, u64Sub (u64Sub size 1) 1, Nat.succ_le_succ (Nat.zero_le _), Nat.le_refl 2, ?_, fun inside => ?_⟩
        · rw [unescaped, if_neg go, if_pos ⟨rfl, more, room⟩, piece_keep dec]
          rfl
        · have first : out + 1 ≤ m.length := by simp at inside; omega
          have second : out + 1 < (overwrite m out ['\\']).length := by
            rw [overwrite_length first]
            exact Nat.lt_of_succ_lt inside
          have both : overwrite (overwrite m out ['\\']) (out + 1) [d] = overwrite m out ['\\', d] := overwrite_append first
          rw [unescapeLoop, has.head]
          simp only [Option.bind_eq_bind, Option.bind_some, if_neg some_, if_neg go, test, unescapeAt_spec has.tail, dec, if_true,
            Option.map_none, write_eq '\\' first, (kept '\\' first).head, write_eq d second, both]
          rfl
  · refine ⟨[c], 0, u64Sub size 1, Nat.zero_le _, Nat.le_refl 1, ?_, fun inside => ?_⟩
    · rw [unescaped, if_neg go, if_neg escape]
      rfl
    · rw [decide_eq_false escape] at test
      rw [unescapeLoop, has.head]
      simp only [Option.bind_eq_bind, Option.bind_some, if_neg some_, if_neg go, test, write_eq c (Nat.lt_of_succ_lt inside)]
      rfl

/-- The loop puts the text over the memory, in place or not. -/
theorem unescapeLoop_spec {rounds : Nat} (noNul : nul ∉ s) (has : HasAt m src (s ++ [nul])) (apart : Apart out src s.length)
    (room : out + (unescaped flags size s).length < m.length) (enough : s.length < rounds) :
    unescapeLoop flags rounds m src out size =
      some (overwrite m out (unescaped flags size s), out + (unescaped flags size s).length) := by
  induction rounds generalizing s m src out size with
  | zero => exact absurd enough (Nat.not_lt_zero _)
  | succ rounds ih =>
      cases s with
      | nil =>
          rw [unescapeLoop, has.head, unescaped]
          simp
      | cons c cs =>
          by_cases stop : u64Sub size 1 = 0
          · rw [unescapeLoop, has.head, unescaped]
            simp [stop]
          obtain ⟨text, k, less, inside, short, same, round⟩ := unescapeLoop_round flags rounds noNul has apart stop
          have without : nul ∉ cs.drop k := fun h => noNul (List.mem_cons_of_mem _ (List.mem_of_mem_drop h))
          rw [same, List.length_append] at room
          rw [List.length_cons] at enough apart
          have front : out + text.length ≤ m.length := by omega
          have tail : HasAt m (src + 1) (cs ++ [nul]) := has.tail
          have rest := tail.drop k
          rw [List.drop_append_of_le_length inside] at rest
          have kept : HasAt (overwrite m out text) (src + 1 + k) (cs.drop k ++ [nul]) := by
            apply rest.overwrite front
            rw [List.length_append, List.length_drop, List.length_singleton]
            unfold Apart at apart
            omega
          have run : unescapeLoop flags rounds (overwrite m out text) (src + 1 + k) (out + text.length) less = _ :=
            ih without kept (by unfold Apart at apart ⊢; rw [List.length_drop]; omega)
              (by rw [overwrite_length front]; omega) (by rw [List.length_drop]; omega)
          rw [round (by omega), run, same, overwrite_append front, List.length_append, Nat.add_assoc]

/-- Wherever the string `s` lies, in its own place or beside it, `text` and its terminator are put over the
    memory, and nothing else is. -/
def Unescapes (flags : Unescape) (size : Nat) (s text : List Char) : Prop :=
  ∀ rounds m src dst, HasAt m src (s ++ [nul]) → Apart dst src s.length → dst + text.length < m.length → s.length < rounds →
    stringUnescape flags rounds m src dst size = some (overwrite m dst (text ++ [nul]), (text.length : Int))

theorem unescapes_unescaped (noNul : nul ∉ s) (word : size < 2 ^ 64) (short : s.length < 2 ^ 31) :
    Unescapes flags size s (unescaped flags size s) := by
  intro rounds m src dst has apart room enough
  have fits := (unescaped_text flags s word short).1
  have value : (((dst + (unescaped flags size s).length : Nat) : Int) - dst).bmod (2 ^ 32) = (unescaped flags size s).length := by
    rw [Int.bmod_eq_of_le] <;> omega
  have front : dst + (unescaped flags size s).length ≤ m.length := room.le
  rw [stringUnescape, unescapeLoop_spec noNul has apart room enough]
  simp only [Option.bind_eq_bind, Option.bind_some]
  rw [write_eq nul (by rw [overwrite_length front]; exact room), overwrite_append front, value]
  rfl

end

/-- The string `s` is read back inside the memory of its own length, over itself or beside it, up to the size of the
    destination, and to the end when that is not too small. -/
def ReadBack (flags : Unescape) (s : List Char) (size : Nat) : Prop :=
  ∃ text, Unescapes flags size s text ∧ text.length ≤ s.length ∧ (size ≠ 0 → text.length < size) ∧
    CutOf text (decoded flags s) ∧ (size = 0 ∨ s.length < size → text = decoded flags s)

theorem string_unescape (flags : Unescape) (s : CString) (size : Nat) (word : size < 2 ^ 64) (short : s.chars.length < 2 ^ 31) :
    ReadBack flags s.chars size :=
  ⟨_, unescapes_unescaped s.noNul word short, unescaped_text flags s.chars word short⟩

/-- `a\tb\x41\1019` -/
def escapedLine : CString := ⟨"a\\tb\\x41\\1019".toList, by decide⟩

theorem escapedLine_unescape : ReadBack unescapeAny escapedLine.chars 0 := string_unescape unescapeAny escapedLine 0 (by decide) (by decide)

end Miracle.Text
