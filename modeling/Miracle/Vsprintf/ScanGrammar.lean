import Miracle.Strtox.Grammar
import Miracle.Vsprintf.Scan

/-! # The numerals of the conversions

What an integer conversion reads by its description: an optional minus, an optional prefix and at
least one digit, as many characters as fit the width.  The parser splits the string into the same
parts, but before it looks at the width.
-/

namespace Miracle.Vsprintf

open Strtox Numeral

/-- The integer conversions. -/
inductive IntConv where
  | d | i | o | u | x
  deriving DecidableEq

def IntConv.char : IntConv → Char
  | d => 'd'
  | i => 'i'
  | o => 'o'
  | u => 'u'
  | x => 'x'

def IntConv.base : IntConv → Nat
  | d => 10
  | i => 0
  | o => 8
  | u => 10
  | x => 16

def IntConv.signed : IntConv → Bool
  | d => true
  | i => true
  | o => false
  | u => false
  | x => false

/-- The sign of a numeral that is scanned. -/
inductive ScanSign (signed : Bool) : List Char → Bool → Prop where
  | none : ScanSign signed [] false
  | minus (may : signed = true) : ScanSign signed ['-'] true

/-- A numeral of the conversion and its value. -/
def ScanNumeral (conv : IntConv) (text : List Char) (v : Int) : Prop :=
  ∃ sign negative body m, text = sign ++ body ∧ ScanSign conv.signed sign negative ∧ Magnitude conv.base body m ∧ v = negated negative m

/-- The longest numeral that the characters begin with. -/
structure Longest (conv : IntConv) (field text : List Char) (v : Int) : Prop where
  start : text <+: field
  numeral : ScanNumeral conv text v
  longest : ∀ text' v', text' <+: field → ScanNumeral conv text' v' → text'.length ≤ text.length

/-- What the parser makes of a string: the sign, the prefix and all digits that follow. -/
structure Parts (conv : IntConv) (t sign lead ds rest : List Char) (negative : Bool) (radix : Nat) (vs : List Nat) : Prop where
  split : t = sign ++ (lead ++ (ds ++ rest))
  signIs : ScanSign conv.signed sign negative
  bare : conv.signed = true → sign = [] → charAt t 0 ≠ '-'
  fixed : fixupRadix (lead ++ (ds ++ rest)) conv.base = (ds ++ rest, radix)
  run : Run radix (ds ++ rest) ds rest vs

/-! ## Numerals without a sign -/

theorem digit_nul : digit nul = none := by decide

/-- A numeral starts as the conversion wants it. -/
theorem magnitude_starts {conv : IntConv} {body : List Char} {m : Nat} (is : Magnitude conv.base body m) :
    startsNumber conv.base (charAt body 0) = true := by
  obtain ⟨radix, lead, ds, vs, radixIs, rfl, nonempty, digits, -⟩ := is
  have decimalDigit {c : Char} {v : Nat} (code : digit c = some v) (lt : v < 10) : isdigit c = true := by
    unfold digit at code
    split at code
    · exact decide_eq_true ‹_›
    · split at code
      · cases code
        omega
      · split at code
        · cases code
          omega
        · cases code
  have octalDigit {c : Char} {v : Nat} (code : digit c = some v) (lt : v < 8) : ¬ c > '7' := by
    have digit := decimalDigit code (by omega)
    rw [isdigit, decide_eq_true_eq] at digit
    rw [Strtox.digit, if_pos digit] at code
    cases code
    rw [gt_iff_lt, Char.not_lt, char_le]
    have low := (char_le _ _).mp digit.1
    change c.toNat - 48 < 8 at lt
    change 48 ≤ c.toNat at low
    change c.toNat ≤ 55
    omega
  obtain ⟨c, ds, rfl⟩ := List.exists_cons_of_ne_nil nonempty
  cases digits with
  | @cons _ v _ _ here more =>
      obtain ⟨code, lt⟩ := here
      have notNul : c ≠ nul := by
        rintro rfl
        rw [digit_nul] at code
        cases code
      have hexDigit := digit_isxdigit code
      generalize base : conv.base = b at radixIs
      have bases : b = 0 ∨ b = 8 ∨ b = 10 ∨ b = 16 := by
        subst base
        cases conv <;> decide
      cases radixIs with
      | given named =>
          change startsNumber radix c = true
          rcases bases with rfl | rfl | rfl | rfl
          · exact absurd rfl named
          · simp [startsNumber, notNul, decimalDigit code (by omega), octalDigit code lt]
          · simp [startsNumber, notNul, decimalDigit code lt]
          · simp [startsNumber, notNul, hexDigit]
      | hex either _ =>
          change startsNumber b '0' = true
          rcases either with rfl | rfl <;> decide
      | octal => exact (by decide : startsNumber 0 '0' = true)
      | decimal =>
          change startsNumber 0 c = true
          simp [startsNumber, notNul, decimalDigit code lt]

/-- The value belongs to the text. -/
theorem magnitude_unique {base m m' : Nat} {body : List Char} (one : Magnitude base body m) (other : Magnitude base body m') : m = m' := by
  cases fixed : fixupRadix body base with
  | mk t' radix =>
      obtain ⟨ds, rest, vs, run⟩ := exists_run radix t'
      have value {m : Nat} (is : Magnitude base body m) : m = Numeral.value radix vs :=
        ((magnitude_iff fixed run).mp ⟨body, [], (List.append_nil _).symm, .inl rfl, is⟩).2.2
      exact (value one).trans (value other).symm

theorem digits_take {base : Nat} {ds : List Char} {vs : List Nat} (digits : Digits base ds vs) (k : Nat) :
    Digits base (ds.take k) (vs.take k) := List.forall₂_take k digits

/-! ## Numerals with a sign -/

theorem negative_of_sign {signed negative negative' : Bool} {sign : List Char} (one : ScanSign signed sign negative)
    (other : ScanSign signed sign negative') : negative = negative' := by
  cases one with
  | none =>
      cases other with
      | none => rfl
  | minus _ =>
      cases other with
      | minus _ => rfl

/-- A numeral starts with its sign and a digit. -/
theorem numeral_body {conv : IntConv} {body : List Char} {m : Nat} (is : Magnitude conv.base body m) :
    charAt body 0 ≠ '-' ∧ charAt body 0 ≠ nul := by
  obtain ⟨v, code⟩ := magnitude_head is
  refine ⟨fun minus => ?_, fun zero => ?_⟩
  · rw [minus, show digit '-' = none by decide] at code
    cases code
  · rw [zero, digit_nul] at code
    cases code

theorem charAt_append {s : List Char} (r : List Char) (first : charAt s 0 ≠ nul) : charAt (s ++ r) 0 = charAt s 0 := by
  cases s with
  | nil => exact absurd rfl first
  | cons c s => rfl

theorem scanNumeral_unique {conv : IntConv} {text : List Char} {v v' : Int} (one : ScanNumeral conv text v)
    (other : ScanNumeral conv text v') : v = v' := by
  obtain ⟨sign, negative, body, m, rfl, signIs, is, rfl⟩ := one
  obtain ⟨sign', negative', body', m', split, signIs', is', rfl⟩ := other
  cases signIs with
  | none =>
      cases signIs' with
      | none =>
          rw [List.nil_append, List.nil_append] at split
          subst split
          rw [magnitude_unique is is']
      | minus =>
          rw [List.nil_append] at split
          exact absurd (by rw [split]; rfl) (numeral_body is).1
  | minus =>
      cases signIs' with
      | none =>
          rw [List.nil_append] at split
          exact absurd (by rw [← split]; rfl) (numeral_body is').1
      | minus =>
          cases List.append_cancel_left split
          rw [magnitude_unique is is']

section

variable {conv : IntConv} {t sign lead ds rest : List Char} {negative : Bool} {radix : Nat} {vs : List Nat}
  (parts : Parts conv t sign lead ds rest negative radix vs)

include parts

/-- A numeral that the string begins with has the sign of the string. -/
theorem Parts.same_sign {sign' body tail : List Char} {negative' : Bool} {m : Nat} (split : t = sign' ++ (body ++ tail))
    (signIs : ScanSign conv.signed sign' negative') (is : Magnitude conv.base body m) :
    sign' = sign ∧ negative' = negative ∧ body ++ tail = lead ++ (ds ++ rest) := by
  have both := split.symm.trans parts.split
  have head := charAt_append tail (numeral_body is).2
  have bare := parts.bare
  cases parts.signIs with
  | none =>
      cases signIs with
      | none => exact ⟨rfl, rfl, both⟩
      | minus may => exact absurd (by rw [split]; rfl) (bare may rfl)
  | minus =>
      cases signIs with
      | none =>
          rw [List.nil_append] at both
          rw [both] at head
          exact absurd head.symm (numeral_body is).1
      | minus => exact ⟨rfl, rfl, List.append_cancel_left both⟩

/-- No numeral goes beyond the digits. -/
theorem Parts.numeral_le (some : ds ≠ []) {text : List Char} {v : Int} (start : text <+: t) (is : ScanNumeral conv text v) :
    text.length ≤ (sign ++ (lead ++ ds)).length := by
  obtain ⟨tail, split⟩ := start
  obtain ⟨sign', negative', body, m, rfl, signIs, is, -⟩ := is
  rw [List.append_assoc] at split
  obtain ⟨rfl, -, same⟩ := parts.same_sign split.symm signIs is
  rw [List.length_append, List.length_append]
  refine Nat.add_le_add_left ?_ _
  obtain ⟨radix', lead', ds', vs', radixIs, rfl, nonempty, digits, -⟩ := is
  have pos : 0 < ds.length := List.length_pos_iff.mpr some
  by_cases single : lead' = [] ∧ ds'.length = 1
  · rw [single.1, List.nil_append, single.2, List.length_append]
    omega
  · have fixed := @fixupRadix_radix _ _ _ _ tail _ radixIs nonempty digits fun bare one => absurd ⟨bare, one⟩ single
    rw [same, parts.fixed] at fixed
    obtain ⟨after, rfl⟩ := Prod.mk.inj fixed
    have leads : lead' = lead := by
      rw [List.append_assoc, ← after] at same
      exact List.append_cancel_right same
    have within : ds' <+: ds := by
      rw [← parts.run.takeWhile, after]
      rw [List.takeWhile_append_of_pos digits.all]
      exact List.prefix_append _ _
    rw [leads, List.length_append, List.length_append]
    exact Nat.add_le_add_left within.length_le _

/-- The first digits make a numeral. -/
theorem Parts.numeral (some : ds ≠ []) {k : Nat} (pos : 0 < k) :
    ScanNumeral conv (sign ++ (lead ++ ds.take k)) (negated negative (value radix (vs.take k))) := by
  obtain ⟨lead', whole, radixIs⟩ := fixupRadix_split (lead ++ (ds ++ rest)) conv.base
  rw [parts.fixed] at whole radixIs
  have leads : lead = lead' := List.append_cancel_right whole
  subst leads
  have first : ds.take k ≠ [] := by
    intro none
    rcases List.take_eq_nil_iff.mp none with zero | none
    · omega
    · exact some none
  refine ⟨sign, negative, _, _, rfl, parts.signIs, ⟨radix, lead, ds.take k, vs.take k, ?_, rfl, first, ?_, rfl⟩, rfl⟩
  · exact radixIs (ds.take k) (ds.drop k ++ rest) (by rw [← List.append_assoc, List.take_append_drop]) first
  · exact digits_take parts.run.digits k

end

end Miracle.Vsprintf
