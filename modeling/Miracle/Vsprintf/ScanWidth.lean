import Miracle.Vsprintf.ScanGrammar

/-! # Field widths

An integer conversion parses the whole run of digits and divides the digits beyond its width away
again.  What is left is right as long as the whole run fits the word and the prefix is complete
inside the width.
-/

namespace Miracle.Vsprintf

open Strtox Numeral

/-! ## The parser -/

theorem simpleStrtoull_run {base radix : Nat} {t t' ds rest : List Char} {vs : List Nat} (valid : ValidBase base)
    (fixed : fixupRadix t base = (t', radix)) (run : Run radix t' ds rest vs) (short : vs.length < 2 ^ 31) :
    simpleStrtoull t base = (u64 (value radix vs), rest) := by
  have bounds := valid.radix t
  rw [fixed] at bounds
  have low : 1 ≤ radix := by omega
  have result : (parseDigits radix vs 0 0).2 = u64 (value radix vs) := @parseDigits_value radix vs 0 0
  -- the overflow bit is masked away
  have count : (parseDigits radix vs 0 0).1 &&& (2 ^ 31 - 1) = vs.length := by
    rw [Nat.and_two_pow_sub_one_eq_mod]
    by_cases out : 2 ^ 64 ≤ value radix vs
    · rw [@parseDigits_overflow radix low bounds.2 vs 0 0 run.digits.lt (by decide) (by omega) out, kstrtoxOverflow]
      omega
    · rw [@parseDigits_fits radix low bounds.2 vs 0 0 run.digits.lt (by decide) (Nat.not_le.mp out)]
      change u32 (0 + vs.length) % 2 ^ 31 = vs.length
      rw [Nat.zero_add, u32_of_lt (by omega)]
      exact Nat.mod_eq_of_lt short
  have left : t'.drop vs.length = rest := by
    rw [run.split, ← run.digits.length]
    exact List.drop_left
  unfold simpleStrtoull
  simp only [fixed, parseInteger, parseLoop_run run, result, count, left]

/-! ## Conversion to a type -/

theorem cast_congr {type : IntType} {v w : Int} (same : v % 2 ^ type.bits = w % 2 ^ type.bits) : type.cast v = type.cast w := by
  unfold IntType.cast
  split
  · rw [Int.bmod_def, Int.bmod_def]
    push_cast
    rw [same]
  · exact same

theorem cast_unsigned (v : Int) : IntType.cast ⟨64, false⟩ v = v % 2 ^ 64 := if_neg Bool.false_ne_true

theorem cast_signed (v : Int) : IntType.cast ⟨64, true⟩ v = v.bmod (2 ^ 64) := if_pos rfl

/-- The word keeps what a type keeps. -/
theorem cast_word {type : IntType} (narrow : type.bits ≤ 64) (signed : Bool) (v : Int) :
    type.cast (IntType.cast ⟨64, signed⟩ v) = type.cast v := by
  apply cast_congr
  have divides : (2 ^ type.bits : Int) ∣ 2 ^ 64 := pow_dvd_pow 2 narrow
  have word : IntType.cast ⟨64, signed⟩ v % 2 ^ 64 = v % 2 ^ 64 := by
    unfold IntType.cast
    split
    · exact Int.bmod_emod
    · exact Int.emod_emod_of_dvd _ (dvd_refl _)
  rw [← Int.emod_emod_of_dvd _ divides, word, Int.emod_emod_of_dvd _ divides]

theorem argType_bits (qualifier : Option Char) (isSign : Bool) : (argType qualifier isSign).bits ≤ 64 := by
  unfold argType
  split <;> simp

/-- The values that the word holds for a conversion. -/
def Fits (signed negative : Bool) (m : Nat) : Prop := if signed then (if negative then m ≤ 2 ^ 63 else m < 2 ^ 63) else m < 2 ^ 64

theorem cast_fits {signed negative : Bool} {m : Nat} {sign : List Char} (signIs : ScanSign signed sign negative)
    (fits : Fits signed negative m) : IntType.cast ⟨64, signed⟩ (negated negative m) = negated negative m := by
  cases signIs with
  | none =>
      cases signed with
      | false =>
          have low : m < 2 ^ 64 := by simpa only [Fits, Bool.false_eq_true, if_false] using fits
          rw [negated, if_neg Bool.false_ne_true, cast_unsigned]
          exact Int.emod_eq_of_lt (by omega) (by omega)
      | true =>
          have low : m < 2 ^ 63 := by simpa only [Fits, Bool.false_eq_true, if_true, if_false] using fits
          rw [negated, if_neg Bool.false_ne_true, cast_signed]
          exact Int.bmod_eq_of_le (by omega) (by omega)
  | minus may =>
      subst may
      have low : m ≤ 2 ^ 63 := by simpa only [Fits, if_true] using fits
      rw [negated, if_pos rfl, cast_signed]
      exact Int.bmod_eq_of_le (by omega) (by omega)

theorem fits_low {signed negative : Bool} {m : Nat} (low : m < 2 ^ 63) : Fits signed negative m := by
  unfold Fits
  split
  · split <;> omega
  · omega

/-- A word is a value of the conversion. -/
theorem cast_word_negated (signed : Bool) (v : Int) :
    ∃ sign negative m, ScanSign signed sign negative ∧ IntType.cast ⟨64, signed⟩ v = negated negative m ∧ m < 2 ^ 64 := by
  cases signed with
  | false =>
      have low := Int.emod_nonneg v (by decide : (2 ^ 64 : Int) ≠ 0)
      have high := Int.emod_lt_of_pos v (by decide : (0 : Int) < 2 ^ 64)
      refine ⟨[], false, (v % 2 ^ 64).toNat, .none, (cast_unsigned v).trans ?_, by omega⟩
      exact (Int.toNat_of_nonneg low).symm
  | true =>
      have low := @Int.le_bmod v (2 ^ 64) (by decide)
      have high := @Int.bmod_lt v (2 ^ 64) (by decide)
      rcases le_total 0 (v.bmod (2 ^ 64)) with nonneg | neg
      · refine ⟨[], false, (v.bmod (2 ^ 64)).toNat, .none, (cast_signed v).trans ?_, by omega⟩
        exact (Int.toNat_of_nonneg nonneg).symm
      · refine ⟨['-'], true, (-v.bmod (2 ^ 64)).toNat, .minus rfl, (cast_signed v).trans ?_, by omega⟩
        rw [negated, if_pos rfl, Int.toNat_of_nonneg (by omega), Int.neg_neg]

/-! ## The digits beyond the width -/

/-- Digits are divided away one by one. -/
theorem cutWidth_eq {signed negative : Bool} {sign : List Char} (signIs : ScanSign signed sign negative) (base m : Nat) {width n : Nat} (wide : width ≤ n) :
    cutWidth signed base width n (negated negative m) = (negated negative (m / base ^ (n - width)), width) := by
  induction n generalizing m with
  | zero =>
      obtain rfl : width = 0 := by omega
      simp [cutWidth]
  | succ n ih =>
      rw [cutWidth]
      split
      · have step : (if signed = true then (negated negative m).tdiv base else negated negative m / base) = negated negative (m / base) := by
          cases signIs with
          | none => cases signed <;> rfl
          | minus may =>
              subst may
              rw [if_pos rfl, negated, if_pos rfl, Int.neg_tdiv]
              rfl
        rw [step, ih _ (by omega), Nat.div_div_eq_div_mul, ← pow_succ', show n + 1 - width = n - width + 1 by omega]
      · obtain rfl : width = n + 1 := by omega
        simp

/-! ## What a conversion reads -/

theorem IntConv.validBase (conv : IntConv) : ValidBase conv.base := by
  cases conv <;> simp [IntConv.base, ValidBase]

theorem s64_congr {v w : Int} (same : v % 2 ^ 64 = w % 2 ^ 64) : s64 v = s64 w :=
  (cast_signed v).symm.trans ((cast_congr same).trans (cast_signed w))

theorem u64_emod (n : Nat) : (u64 n : Int) % 2 ^ 64 = n % 2 ^ 64 := by
  rw [u64, Int.natCast_emod]
  exact Int.emod_emod_of_dvd _ (dvd_refl _)

theorem parseWhole_signed (str : List Char) (qualifier : Option Char) (base : Nat) :
    parseWhole str qualifier base true = simpleStrtol str base := by
  rw [parseWhole, if_pos rfl]
  exact ite_self _

theorem parseWhole_unsigned (str : List Char) (qualifier : Option Char) (base : Nat) :
    parseWhole str qualifier base false = (((simpleStrtoul str base).1 : Int), (simpleStrtoul str base).2) := by
  rw [parseWhole, if_neg Bool.false_ne_true]
  simp only [simpleStrtoul, ite_self]

section

variable {conv : IntConv} {t sign lead ds rest : List Char} {negative : Bool} {radix : Nat} {vs : List Nat}
  (parts : Parts conv t sign lead ds rest negative radix vs)

include parts

/-- The whole run, as a value of the word. -/
theorem Parts.whole (short : ds.length < 2 ^ 31) (qualifier : Option Char) :
    parseWhole t qualifier conv.base conv.signed = (IntType.cast ⟨64, conv.signed⟩ (negated negative (value radix vs)), rest) := by
  have body := simpleStrtoull_run conv.validBase parts.fixed parts.run (parts.run.digits.length ▸ short)
  have bare := parts.bare
  obtain ⟨rfl, signIs, -, -, -⟩ := parts
  cases signed : conv.signed with
  | false =>
      rw [signed] at signIs
      cases signIs with
      | none =>
          rw [List.nil_append, parseWhole_unsigned, simpleStrtoul, body, cast_unsigned]
          rfl
      | minus may => cases may
  | true =>
      cases signIs with
      | none =>
          rw [parseWhole_signed, simpleStrtol, if_neg (bare signed rfl), List.nil_append, simpleStrtoul, body, cast_signed]
          exact congrArg (·, rest) (s64_congr (u64_emod _))
      | minus may =>
          have first : charAt (['-'] ++ (lead ++ (ds ++ rest))) 0 = '-' := rfl
          rw [parseWhole_signed, simpleStrtol, if_pos first, List.singleton_append, List.drop_one, List.tail_cons, simpleStrtoul, body, cast_signed]
          exact congrArg (·, rest) (s64_congr (Int.ModEq.neg (u64_emod _)))

/-- The characters that the parser uses. -/
theorem Parts.used : t.length - rest.length = (sign ++ (lead ++ ds)).length := by
  rw [parts.split, ← List.append_assoc lead, ← List.append_assoc sign, List.length_append, Nat.add_sub_cancel]

theorem Parts.field_inside (short : ds.length < 2 ^ 31) (qualifier : Option Char) {width : Int}
    (inside : ((sign ++ (lead ++ ds)).length : Int) ≤ width) : parseField t qualifier width conv.base conv.signed =
    (IntType.cast ⟨64, conv.signed⟩ (negated negative (value radix vs)), (sign ++ (lead ++ ds)).length) := by
  unfold parseField
  simp only [parts.whole short, parts.used]
  exact if_neg fun both => absurd both.2 (not_lt.mpr inside)

/-- The base that the digits beyond the width are divided by. -/
theorem Parts.divisor (plain : negative = true → conv.base = 0 → radix = 10) :
    (if conv.base = 0 then (fixupRadix t conv.base).2 else conv.base) = radix := by
  have fixed := parts.fixed
  split
  · rename_i auto
    have plain := fun minus => plain minus auto
    obtain ⟨rfl, signIs, -, -, -⟩ := parts
    cases signIs with
    | none =>
        rw [List.nil_append, fixed]
    | minus =>
        rw [auto, plain rfl]
        rfl
  · rename_i given
    have same : (fixupRadix (lead ++ (ds ++ rest)) conv.base).2 = conv.base := by
      unfold fixupRadix
      simp only [detectBase, if_neg given]
      split <;> rfl
    rw [fixed] at same
    exact same.symm

theorem Parts.field_cut (short : ds.length < 2 ^ 31) (qualifier : Option Char) {width : Nat} (pos : 0 < width)
    (beyond : width < (sign ++ (lead ++ ds)).length) (plain : negative = true → conv.base = 0 → radix = 10) {sign' : List Char}
    {negative' : Bool} {m : Nat} (signIs : ScanSign conv.signed sign' negative')
    (word : IntType.cast ⟨64, conv.signed⟩ (negated negative (value radix vs)) = negated negative' m) :
    parseField t qualifier width conv.base conv.signed =
      (negated negative' (m / radix ^ ((sign ++ (lead ++ ds)).length - width)), width) := by
  unfold parseField
  simp only [parts.whole short, parts.used, parts.divisor plain, word]
  rw [if_pos ⟨by omega, by omega⟩]
  exact cutWidth_eq signIs radix m beyond.le

/-- The longest numeral inside the width. -/
theorem Parts.longest (some : ds ≠ []) {n k : Nat} {text : List Char} {v : Int} (longest : Longest conv (t.take n) text v)
    (pos : 0 < k) (le : k ≤ ds.length) (size : (sign ++ lead).length + k = min n (sign ++ (lead ++ ds)).length) :
    text.length = min n (sign ++ (lead ++ ds)).length ∧ v = negated negative (value radix (vs.take k)) := by
  have own := parts.numeral some pos
  have prefixed : sign ++ (lead ++ ds.take k) <+: t := by
    rw [parts.split]
    refine ⟨ds.drop k ++ rest, ?_⟩
    rw [List.append_assoc, List.append_assoc, ← List.append_assoc (ds.take k), List.take_append_drop]
  have count : (sign ++ (lead ++ ds.take k)).length = min n (sign ++ (lead ++ ds)).length := by
    rw [← size, ← List.append_assoc, List.length_append, List.length_take, min_eq_left le]
  have inside : sign ++ (lead ++ ds.take k) <+: t.take n := by
    rw [List.prefix_take_iff]
    exact ⟨prefixed, count.trans_le (min_le_left _ _)⟩
  have least := longest.longest _ _ inside own
  have start := List.prefix_take_iff.mp longest.start
  have most := parts.numeral_le some start.1 longest.numeral
  have same : text = sign ++ (lead ++ ds.take k) :=
    ((List.prefix_of_prefix_length_le prefixed start.1 least).eq_of_length (by omega)).symm
  rw [← count, ← same]
  rw [← same] at own
  exact ⟨rfl, scanNumeral_unique longest.numeral own⟩

end

/-! ## The widths that are met -/

/-- The width ends among the digits, and all of them together fit the word. -/
structure CutsDigits (conv : IntConv) (n : Nat) (sign lead ds : List Char) (negative : Bool) (radix : Nat) (vs : List Nat) : Prop where
  narrow : n < 2 ^ 15
  digit : (sign ++ lead).length < n
  beyond : n < (sign ++ (lead ++ ds)).length
  fits : Fits conv.signed negative (value radix vs)
  plain : negative = true → conv.base = 0 → radix = 10

/-- The inputs on which the width is met: the digits end inside it, it ends among digits that fit the word, or it leaves only
the zero of a prefix. -/
def Exact (conv : IntConv) (n : Nat) (t : List Char) : Prop :=
  ∃ sign lead ds rest negative radix vs, Parts conv t sign lead ds rest negative radix vs ∧ ds.length < 2 ^ 31 ∧
    (ds ≠ [] ∧ ((sign ++ (lead ++ ds)).length : Int) ≤ s16 n ∨ CutsDigits conv n sign lead ds negative radix vs ∨
      n = 1 ∧ sign = [] ∧ lead ≠ [])

theorem s16_of_word {v w : Int} (same : v % 2 ^ 32 = w % 2 ^ 32) : s16 v = s16 w := by
  have short (v : Int) : IntType.cast ⟨16, true⟩ v = s16 v := if_pos rfl
  have low : v % 2 ^ 16 = w % 2 ^ 16 := by omega
  exact (short v).symm.trans ((cast_congr low).trans (short w))

theorem s16_le {n : Nat} : s16 n ≤ n := by
  rw [s16, Int.bmod_def]
  split <;> omega

section

variable {conv : IntConv} {t sign lead ds rest : List Char} {negative : Bool} {radix : Nat} {vs : List Nat}
  (parts : Parts conv t sign lead ds rest negative radix vs)

include parts

theorem Parts.lead_hex (some : lead ≠ []) : radix = 16 ∧ charAt (lead ++ (ds ++ rest)) 0 = '0' ∧ lead.length = 2 := by
  have fixed := parts.fixed
  unfold fixupRadix at fixed
  simp only at fixed
  split at fixed
  · rename_i both
    obtain ⟨after, rfl⟩ := Prod.mk.inj fixed
    have two : 2 ≤ (lead ++ (ds ++ rest)).length := by
      by_contra few
      have last : charAt (lead ++ (ds ++ rest)) 1 = nul := List.getD_eq_default _ _ (by omega)
      rw [last] at both
      exact absurd both.2.2 (by decide)
    have count := congrArg List.length after
    rw [List.length_drop] at count
    rw [List.length_append] at count two
    exact ⟨both.1, both.2.1, by omega⟩
  · have same := congrArg List.length (Prod.mk.inj fixed).1
    rw [List.length_append] at same
    exact absurd (List.length_eq_zero_iff.mp (by omega)) some

/-- With nothing left but the zero of a prefix every digit is divided away. -/
theorem Parts.field_zero (short : ds.length < 2 ^ 31) (qualifier : Option Char) (bare : sign = []) (some : lead ≠ []) :
    parseField t qualifier 1 conv.base conv.signed = (0, 1) := by
  obtain ⟨hex, -, two⟩ := parts.lead_hex some
  have plain : negative = false := negative_of_sign (bare ▸ parts.signIs) .none
  have total : (sign ++ (lead ++ ds)).length = vs.length + 2 := by
    rw [bare, List.nil_append, List.length_append, two, parts.run.digits.length, Nat.add_comm]
  have small := value_lt (hex ▸ (by decide : 1 < 16)) parts.run.digits.lt
  -- a word that is not the value itself belongs to a longer run than the word has digits
  have word : ∃ sign' negative' m, ScanSign conv.signed sign' negative' ∧
      IntType.cast ⟨64, conv.signed⟩ (negated negative (value radix vs)) = negated negative' m ∧ m < radix ^ (vs.length + 1) := by
    by_cases low : value radix vs < 2 ^ 63
    · refine ⟨[], false, value radix vs, .none, ?_, small.trans_le (Nat.pow_le_pow_right (by omega) (Nat.le_succ _))⟩
      rw [plain]
      exact cast_fits .none (fits_low low)
    · obtain ⟨sign', negative', m, signIs, is, word⟩ := cast_word_negated conv.signed (negated negative (value radix vs))
      refine ⟨sign', negative', m, signIs, is, word.trans_le ?_⟩
      have many : 16 ≤ vs.length + 1 := by
        by_contra few
        have most : radix ^ vs.length ≤ 16 ^ 14 := by
          rw [hex]
          exact Nat.pow_le_pow_right (by decide) (by omega)
        omega
      calc 2 ^ 64 = radix ^ 16 := by rw [hex]; rfl
        _ ≤ radix ^ (vs.length + 1) := Nat.pow_le_pow_right (by omega) many
  obtain ⟨sign', negative', m, signIs, is, lt⟩ := word
  have cut := parts.field_cut short qualifier Nat.one_pos (by omega) (fun minus => absurd (plain.symm.trans minus) Bool.false_ne_true) signIs is
  have left : vs.length + 2 - 1 = vs.length + 1 := rfl
  rw [total, left, Nat.div_eq_of_lt lt] at cut
  rw [show (1 : Int) = (1 : Nat) from rfl, cut]
  cases negative' <;> rfl

end

theorem numeral_pos {conv : IntConv} {text : List Char} {v : Int} (is : ScanNumeral conv text v) : 0 < text.length := by
  obtain ⟨sign, negative, body, m, rfl, -, is, -⟩ := is
  cases body with
  | nil => exact absurd rfl (numeral_body is).2
  | cons c body => simp

theorem numeral_zero {conv : IntConv} {v : Int} (is : ScanNumeral conv ['0'] v) : v = 0 := by
  obtain ⟨sign, negative, body, m, split, signIs, ⟨radix, lead, ds, vs, radixIs, rfl, some, digits, rfl⟩, rfl⟩ := is
  have zero (eq : ds = ['0']) : value radix vs = 0 := by
    subst eq
    cases digits with
    | cons here more =>
        cases more with
        | nil =>
            obtain ⟨rfl⟩ := digit_zero.symm.trans here.1
            simp [value]
  cases signIs with
  | none =>
      rw [List.nil_append] at split
      generalize conv.base = base at radixIs
      cases radixIs with
      | given | octal | decimal => rw [zero split.symm]; rfl
      | hex =>
          obtain ⟨-, rest⟩ := List.cons.inj split
          cases rest
  | minus => cases split

/-- A conversion with a width that is met. -/
theorem parseField_exact {conv : IntConv} {n : Nat} {t text : List Char} {v : Int} (exact : Exact conv n t)
    (longest : Longest conv (t.take n) text v) (qualifier : Option Char) :
    0 < s16 n ∧ (parseField t qualifier (s16 n) conv.base conv.signed).2 = text.length ∧
    ∀ type : IntType, type.bits ≤ 64 → type.cast (parseField t qualifier (s16 n) conv.base conv.signed).1 = type.cast v := by
  obtain ⟨sign, lead, ds, rest, negative, radix, vs, parts, short, ⟨some, inside⟩ | cuts | ⟨rfl, bare, some⟩⟩ := exact
  · have pos : 0 < ds.length := List.length_pos_iff.mpr some
    have total : (sign ++ (lead ++ ds)).length = (sign ++ lead).length + ds.length := by
      rw [← List.append_assoc, List.length_append]
    have fits := inside.trans s16_le
    obtain ⟨length, rfl⟩ := parts.longest some longest pos le_rfl (by omega)
    rw [List.take_of_length_le parts.run.digits.length.ge, parts.field_inside short qualifier inside]
    exact ⟨by omega, by omega, fun type narrow => cast_word narrow _ _⟩
  · obtain ⟨narrow, digit, beyond, fits, plain⟩ := cuts
    have total : (sign ++ (lead ++ ds)).length = (sign ++ lead).length + ds.length := by
      rw [← List.append_assoc, List.length_append]
    have some : ds ≠ [] := List.length_pos_iff.mp (by omega)
    obtain ⟨k, rfl⟩ := Nat.exists_eq_add_of_lt digit
    have width : s16 ((sign ++ lead).length + k + 1 : Nat) = ((sign ++ lead).length + k + 1 : Nat) := s16_of (by omega) (by omega)
    obtain ⟨length, rfl⟩ := parts.longest some longest (Nat.succ_pos k) (by omega) (by omega)
    have left : (sign ++ (lead ++ ds)).length - ((sign ++ lead).length + k + 1) = (vs.drop (k + 1)).length := by
      rw [List.length_drop, ← parts.run.digits.length]
      omega
    have radixes := conv.validBase.radix (lead ++ (ds ++ rest))
    rw [parts.fixed] at radixes
    have quotient : value radix vs / radix ^ (vs.drop (k + 1)).length = value radix (vs.take (k + 1)) := by
      have whole := @value_drop radix (vs.take (k + 1)) (vs.drop (k + 1)) radixes.1 fun d member =>
        parts.run.digits.lt d (List.mem_of_mem_drop member)
      rwa [List.take_append_drop] at whole
    rw [width, parts.field_cut short qualifier (by omega) beyond plain parts.signIs (cast_fits parts.signIs fits), left, quotient]
    exact ⟨by omega, by omega, fun _ _ => rfl⟩
  · have one : s16 (1 : Nat) = 1 := s16_of (by decide) (by decide)
    obtain ⟨-, head, -⟩ := parts.lead_hex some
    have first : t.take 1 = ['0'] := by
      rw [parts.split, bare, List.nil_append]
      cases eq : lead ++ (ds ++ rest) with
      | nil =>
          rw [eq] at head
          exact absurd head (by decide)
      | cons c s =>
          rw [eq] at head
          rw [show c = '0' from head]
          rfl
    have start := longest.start
    rw [first] at start
    have is := longest.numeral
    have same : text = ['0'] := start.eq_of_length (Nat.le_antisymm start.length_le (numeral_pos is))
    rw [same] at is ⊢
    rw [one, parts.field_zero short qualifier bare some, numeral_zero is]
    exact ⟨by decide, rfl, fun _ _ => rfl⟩

/-! ## The round of the loop -/

/-- The length modifiers. -/
inductive LengthModifier where
  | none | h | hh | l | ll | L | z | Z

def LengthModifier.text : LengthModifier → List Char
  | none => []
  | h => ['h']
  | hh => ['h', 'h']
  | l => ['l']
  | ll => ['l', 'l']
  | L => ['L']
  | z => ['z']
  | Z => ['Z']

def LengthModifier.qualifier : LengthModifier → Option Char
  | none => Option.none
  | h => some 'h'
  | hh => some 'H'
  | l => some 'l'
  | ll => some 'L'
  | L => some 'L'
  | z => some 'z'
  | Z => some 'Z'

theorem scanQualifier_modifier (m : LengthModifier) (conv : IntConv) (fmt : List Char) :
    scanQualifier (m.text ++ conv.char :: fmt) = (m.qualifier, conv.char :: fmt) := by
  cases m <;> cases conv <;>
    simp [scanQualifier, charAt, tolower, LengthModifier.text, LengthModifier.qualifier, IntConv.char]

theorem modifier_head (m : LengthModifier) (conv : IntConv) (fmt : List Char) : isdigit (charAt (m.text ++ conv.char :: fmt) 0) = false := by
  cases m <;> cases conv <;> rfl

theorem digitChar_isdigit : ∀ d : Fin 10, isdigit (Nat.digitChar d) = true ∧ (Nat.digitChar d).toNat = d + '0'.toNat := by decide

/-- `skip_atoi` reads a number up to a multiple of `2 ^ 32`. -/
theorem skipAtoi_digits {s : List Char} (stop : isdigit (charAt s 0) = false) (ds : List (Fin 10)) {i : Int} {n : Nat}
    (is : i % 2 ^ 32 = n % 2 ^ 32) : ∃ v, skipAtoi (ds.map (fun d : Fin 10 => Nat.digitChar d) ++ s) i = (v, s) ∧
    v % 2 ^ 32 = extend 10 n (ds.map Fin.val) % 2 ^ 32 := by
  induction ds generalizing i n with
  | nil =>
      refine ⟨i, ?_, is⟩
      cases s with
      | nil => rfl
      | cons c s => exact if_neg (Bool.eq_false_iff.mp stop)
  | cons d ds ih =>
      obtain ⟨isDigit, code⟩ := digitChar_isdigit d
      have next : s32 (i * 10 + ((Nat.digitChar d).toNat - '0'.toNat)) % 2 ^ 32 = (n * 10 + d : Nat) % 2 ^ 32 := by
        have word : s32 (i * 10 + ((Nat.digitChar d).toNat - '0'.toNat)) % 2 ^ 32 = (i * 10 + ((Nat.digitChar d).toNat - '0'.toNat)) % 2 ^ 32 :=
          Int.bmod_emod
        rw [word, code]
        push_cast
        omega
      obtain ⟨v, eq, value⟩ := ih next
      exact ⟨v, (if_pos isDigit).trans eq, value⟩

/-- The field width that is read. -/
theorem skipAtoi_width (n : Decimal) {s : List Char} (stop : isdigit (charAt s 0) = false) :
    ∃ v, skipAtoi (n.text ++ s) 0 = (v, s) ∧ s16 v = s16 n.value := by
  obtain ⟨v, eq, value⟩ := @skipAtoi_digits s stop n.digits 0 0 (by simp)
  have number : v % 2 ^ 32 = n.value % 2 ^ 32 := value
  exact ⟨v, eq, s16_of_word number⟩

theorem scanInteger_next {st : ScanState} {qualifier : Option Char} {fieldWidth : Int} {base : Nat} {isSign : Bool}
    (digit : startsNumber base (if isSign = true ∧ charAt (skipSpaces st.str) 0 = '-' then charAt (skipSpaces st.str) 1
      else charAt (skipSpaces st.str) 0) = true) : scanInteger st qualifier fieldWidth base isSign =
    .next ({ st with str := (skipSpaces st.str).drop (parseField (skipSpaces st.str) qualifier fieldWidth base isSign).2 }.store
      (.integer (argType qualifier isSign)
        ((argType qualifier isSign).cast (parseField (skipSpaces st.str) qualifier fieldWidth base isSign).1))) := by
  unfold scanInteger
  exact if_pos digit

theorem scanInteger_exact {conv : IntConv} {n : Nat} {st : ScanState} {text : List Char} {v : Int} (exact : Exact conv n (skipSpaces st.str))
    (longest : Longest conv ((skipSpaces st.str).take n) text v) (qualifier : Option Char) :
    scanInteger st qualifier (s16 n) conv.base conv.signed = .next ({ st with str := (skipSpaces st.str).drop text.length }.store
      (.integer (argType qualifier conv.signed) ((argType qualifier conv.signed).cast v))) := by
  obtain ⟨-, used, value⟩ := parseField_exact exact longest qualifier
  have digit : startsNumber conv.base (if conv.signed = true ∧ charAt (skipSpaces st.str) 0 = '-' then charAt (skipSpaces st.str) 1
      else charAt (skipSpaces st.str) 0) = true := by
    obtain ⟨tail, split⟩ := (List.prefix_take_iff.mp longest.start).1
    obtain ⟨sign, negative, body, m, rfl, signIs, is, -⟩ := longest.numeral
    obtain ⟨notMinus, notNul⟩ := numeral_body is
    have head := charAt_append tail notNul
    rw [← split]
    cases signIs with
    | none =>
        rw [List.nil_append, head, if_neg fun both => notMinus both.2]
        exact magnitude_starts is
    | minus may =>
        rw [if_pos ⟨may, rfl⟩]
        exact (congrArg _ head).trans (magnitude_starts is)
  rw [scanInteger_next digit, used, value _ (argType_bits _ _)]

/-- A string that starts with a numeral has not ended. -/
theorem Longest.more {conv : IntConv} {n : Nat} {str text : List Char} {v : Int} (longest : Longest conv ((skipSpaces str).take n) text v) :
    charAt str 0 ≠ nul := by
  have some := numeral_pos longest.numeral
  obtain ⟨tail, split⟩ := (List.prefix_take_iff.mp longest.start).1
  obtain ⟨sign, negative, body, m, rfl, signIs, is, -⟩ := longest.numeral
  have head := charAt_append tail (numeral_body is).2
  intro zero
  have same : skipSpaces str = str := by
    cases str with
    | nil => rfl
    | cons c str => exact List.dropWhile_cons_of_neg (by rw [show c = nul from zero]; decide)
  rw [same] at split
  rw [← split] at zero
  cases signIs with
  | none =>
      rw [List.nil_append, head] at zero
      exact (numeral_body is).2 zero
  | minus => exact absurd zero (by decide : '-' ≠ nul)

theorem convert_int (conv : IntConv) (fmt : List Char) (st : ScanState) (eq : st.fmt = conv.char :: fmt) (qualifier : Option Char) (fieldWidth : Int) :
    convert st qualifier fieldWidth = scanInteger { st with fmt := fmt } qualifier fieldWidth conv.base conv.signed := by
  obtain ⟨_, str, num, args⟩ := st
  subst eq
  cases conv <;> rfl

/-- The round of the conversion with this width and this modifier stores the longest numeral inside the width, uses its
characters, and the loop goes on behind them. -/
def KeepsWidth (n : Decimal) (modifier : LengthModifier) (conv : IntConv) (str : List Char) : Prop :=
  ∀ length fmt num args text v, Longest conv ((skipSpaces str).take n.value) text v →
    scanLoop length ⟨'%' :: (n.text ++ (modifier.text ++ conv.char :: fmt)), str, num, args⟩ =
    scanLoop length ⟨fmt, (skipSpaces str).drop text.length, num + 1, args ++
      [.integer (argType modifier.qualifier conv.signed) ((argType modifier.qualifier conv.signed).cast v)]⟩

/-- Widths that the digits or the word end inside are kept. -/
theorem width_kept (n : Decimal) (modifier : LengthModifier) (conv : IntConv) (str : List Char) (exact : Exact conv n.value (skipSpaces str)) :
    KeepsWidth n modifier conv str := by
  intro length fmt num args text v longest
  refine scanLoop_next (by decide : '%' ≠ nul) ?_
  obtain ⟨positive, -⟩ := parseField_exact exact longest none
  obtain ⟨width, skip, same⟩ := skipAtoi_width n (modifier_head modifier conv fmt)
  obtain ⟨d, ds, digits⟩ := List.exists_cons_of_ne_nil n.nonempty
  have first : n.text ++ (modifier.text ++ conv.char :: fmt) =
      Nat.digitChar d :: ((ds.map fun d : Fin 10 => Nat.digitChar d) ++ (modifier.text ++ conv.char :: fmt)) := by
    rw [Decimal.text, digits]
    rfl
  have isDigit : isdigit (charAt (n.text ++ (modifier.text ++ conv.char :: fmt)) 0) = true := by
    rw [first]
    exact (digitChar_isdigit d).1
  have noStar : charAt (n.text ++ (modifier.text ++ conv.char :: fmt)) 0 ≠ '*' := by
    intro star
    rw [star] at isDigit
    exact absurd isDigit (by decide)
  have some : conv.char ≠ nul ∧ conv.char ≠ 'n' := by cases conv <;> decide
  have white : (⟨'%' :: (n.text ++ (modifier.text ++ conv.char :: fmt)), str, num, args⟩ : ScanState).skipWhite =
      ⟨'%' :: (n.text ++ (modifier.text ++ conv.char :: fmt)), str, num, args⟩ := if_neg (by decide : ¬ isspace '%' = true)
  have percent : charAt ('%' :: (n.text ++ (modifier.text ++ conv.char :: fmt))) 0 = '%' := rfl
  rw [scanRound, white, formatRound]
  simp only [percent, ne_eq, not_true_eq_false, false_and, if_false, List.drop_one, List.tail_cons, if_neg noStar]
  rw [if_neg (by decide)]
  rw [directive]
  simp only [isDigit, if_true, skip, same, scanQualifier_modifier, true_and]
  rw [if_neg (not_le.mpr positive)]
  have char : charAt (conv.char :: fmt) 0 = conv.char := rfl
  simp only [char, if_neg some.1, if_neg some.2, if_neg longest.more]
  rw [convert_int conv fmt _ rfl, scanInteger_exact exact longest]
  rfl

/-- `"%3x"` reads `1` from `"0x1f"`. -/
theorem hex_cut : KeepsWidth ⟨[3], List.cons_ne_nil _ _⟩ .none .x "0x1f".toList := by
  refine width_kept _ .none .x _ ⟨[], "0x".toList, "1f".toList, [], false, 16, [1, 15], ?_, by decide, .inr (.inl ?_)⟩
  · exact ⟨rfl, .none, fun _ _ => by decide, rfl, rfl, .cons ⟨by decide, by decide⟩ (.cons ⟨by decide, by decide⟩ .nil), stops_nil 16⟩
  · exact ⟨by decide, by decide, by decide, fits_low (by decide), by decide⟩

/-- A minus hides the prefix when the digits are divided away: `"%4i"` reads `-3` from `"-0x1f"`. -/
theorem hex_after_minus : ¬ KeepsWidth ⟨[4], List.cons_ne_nil _ _⟩ .none .i "-0x1f".toList := by
  intro kept
  have longest : Longest .i "-0x1".toList "-0x1".toList (-1) := by
    refine ⟨List.prefix_rfl, ⟨['-'], true, "0x1".toList, 1, rfl, .minus rfl, ?_, rfl⟩, fun _ _ start _ => start.length_le⟩
    exact ⟨16, "0x".toList, ['1'], [1], .hex (.inl rfl) (.inl rfl), rfl, by decide, .cons ⟨by decide, by decide⟩ .nil, rfl⟩
  have stored := kept 5 [] 0 [] _ _ longest
  have round : scanRound 5 ⟨"%4i".toList, "-0x1f".toList, 0, []⟩ = .next ⟨[], ['f'], 1, [.integer ⟨32, true⟩ (-3)]⟩ := by decide +kernel
  have stop (st : ScanState) (ends : st.fmt = []) : scanLoop 5 st = st := by
    rw [scanLoop, dif_pos (by rw [ends]; rfl)]
  have read : scanLoop 5 ⟨"%4i".toList, "-0x1f".toList, 0, []⟩ = ⟨[], ['f'], 1, [.integer ⟨32, true⟩ (-3)]⟩ := by
    rw [scanLoop_next (by decide) round, stop _ rfl]
  have both := read.symm.trans (stored.trans (stop _ rfl))
  exact absurd both (by decide +kernel)

end Miracle.Vsprintf
