import Miracle.Strtox.Strict
import Miracle.Vsprintf.Output

/-! # Decimal numbers are read back

A decimal number is padded with spaces or zeros around one numeral, and the strict conversions
read that numeral as the number.
-/

namespace Miracle.Vsprintf

open Numeral Strtox

/-! ## Numerals -/

theorem digit_digitChar {d : Nat} (lt : d < 10) : digit (digitChar d) = some d := by
  have all : ∀ d, d < 10 → digit (digitChar d) = some d := by decide
  exact all d lt

theorem decimalDigits_lt (n : Nat) : ∀ d ∈ decimalDigits n, d < 10 := by
  rw [decimalDigits]
  split
  · simp
  · exact fun d member => Nat.digits_lt_base (by decide) member

theorem value_decimalDigits (n : Nat) : value 10 (decimalDigits n).reverse = n := by
  rw [decimalDigits]
  split
  · rename_i zero
    rw [zero]
    rfl
  · exact value_digits n

theorem decimalDigits_ne_nil (n : Nat) : decimalDigits n ≠ [] := by
  rw [decimalDigits]
  split
  · simp
  · exact Nat.digits_ne_nil_iff_ne_zero.mpr ‹_›

/-- The digits of a number behind any number of zeros. -/
def paddedDigits (k n : Nat) : List Char := List.replicate k '0' ++ ((decimalDigits n).map digitChar).reverse

theorem paddedDigits_magnitude (k n : Nat) : Magnitude 10 (paddedDigits k n) n := by
  refine ⟨10, [], paddedDigits k n, List.replicate k 0 ++ (decimalDigits n).reverse, .given (by decide), rfl, ?_, ?_, ?_⟩
  · intro none
    have both := List.append_eq_nil_iff.mp none
    exact decimalDigits_ne_nil n (List.map_eq_nil_iff.mp (List.reverse_eq_nil_iff.mp both.2))
  · refine List.rel_append ?_ ?_
    · refine List.forall₂_iff_get.mpr ⟨by rw [List.length_replicate, List.length_replicate], fun i _ _ => ?_⟩
      simp only [List.get_eq_getElem, List.getElem_replicate]
      exact ⟨digit_zero, by decide⟩
    · rw [← List.map_reverse, List.forall₂_map_left_iff, List.forall₂_same]
      intro d member
      have lt := decimalDigits_lt n d (List.mem_reverse.mp member)
      exact ⟨digit_digitChar lt, lt⟩
  · rw [value_zeros, value_decimalDigits]

theorem leadingDigits_length (signed : Bool) (base : Nat) (s : List Char) : (leadingDigits signed base s).length ≤ s.length := by
  obtain ⟨sign, whole, -⟩ := bodyOf_sign signed s
  obtain ⟨lead, split, -⟩ := fixupRadix_split (bodyOf signed s).2 base
  have run := (List.takeWhile_sublist (l := (fixupRadix (bodyOf signed s).2 base).1)
    fun c => (digit c).any (· < (fixupRadix (bodyOf signed s).2 base).2)).length_le
  have lengths := congrArg List.length whole
  have lengths' := congrArg List.length split
  rw [List.length_append] at lengths lengths'
  have eq : leadingDigits signed base s = (fixupRadix (bodyOf signed s).2 base).1.takeWhile
    fun c => (digit c).any (· < (fixupRadix (bodyOf signed s).2 base).2) := rfl
  rw [eq]
  omega

/-- A short numeral in the range of the type is read as its value. -/
theorem read_back (k : Conversion) {s : List Char} {v : Int} (noNul : nul ∉ s) (short : s.length < 2 ^ 31)
    (is : Denotes k.signed 10 s v) (fits : k.low ≤ v ∧ v ≤ k.high) (res : Int) : k.run s 10 res = (0, v) := by
  have strict := k.strict (.inr (by decide)) noNul ((leadingDigits_length k.signed 10 s).trans_lt short)
  have ok := (strict.ok res).mpr ⟨v, is, fits⟩
  exact Prod.ext ok (strict.value res v is ok)

theorem digitChar_ne_nul {d : Nat} (lt : d < 10) : digitChar d ≠ nul := by
  have all : ∀ d, d < 10 → digitChar d ≠ nul := by decide
  exact all d lt

theorem paddedDigits_noNul (k n : Nat) : nul ∉ paddedDigits k n := by
  intro member
  rcases List.mem_append.mp member with zero | digits
  · exact absurd (List.eq_of_mem_replicate zero) (by decide)
  · obtain ⟨d, inside, is⟩ := List.mem_map.mp (List.mem_reverse.mp digits)
    exact digitChar_ne_nul (decimalDigits_lt n d inside) is

theorem paddedDigits_length (k n : Nat) : (paddedDigits k n).length = k + (decimalDigits n).length := by
  rw [paddedDigits, List.length_append, List.length_replicate, List.length_reverse, List.length_map]

/-! ## Padded digits -/

theorem numberDigits_decimal {locase num : Nat} (case_ : locase = 0 ∨ locase = 0x20) :
    numberDigits 10 locase num = (decimalDigits num).map digitChar := by
  have all : ∀ d, d < 10 → digitOf 0 d = digitChar d ∧ digitOf 0x20 d = digitChar d := by decide
  rw [numberDigits]
  split
  · rename_i one
    rw [decimalDigits_one one, Nat.mod_eq_of_lt one]
    rcases case_ with rfl | rfl
    · exact congrArg (fun c => [c]) (all num one).1
    · exact congrArg (fun c => [c]) (all num one).2
  · rw [if_neg (by decide)]
    exact putDec_eq num

/-- The sign takes one place of the width. -/
theorem numberSign_width {flags : Flags} {num : Nat} {w : Int} (low : -2 ^ 14 ≤ w) (high : w ≤ 2 ^ 14) :
    numberSign flags num w = ((numberSign flags num 0).1, (numberSign flags num 0).2.1, w - (numberSign flags num 0).1.length) ∧
      (numberSign flags num 0).1.length ≤ 1 := by
  have one : s16 (w - 1) = w - 1 := s16_of (by omega) (by omega)
  unfold numberSign
  rw [one]
  split
  · split
    · exact ⟨rfl, le_rfl⟩
    · split
      · exact ⟨rfl, le_rfl⟩
      · split
        · exact ⟨rfl, le_rfl⟩
        · exact ⟨Prod.ext rfl (Prod.ext rfl (Int.sub_zero w).symm), Nat.zero_le _⟩
  · exact ⟨Prod.ext rfl (Prod.ext rfl (Int.sub_zero w).symm), Nat.zero_le _⟩

/-- The precision that is used. -/
def fullPrecision (spec : PrintfSpec) (digits : Nat) : Int := if (digits : Int) > spec.precision then digits else spec.precision

/-- The text of a decimal number, by the signs and the digits. -/
theorem numberText_decimal {num n : Nat} {spec : PrintfSpec} {sign : List Char} (base : spec.base = 10)
    (signs : numberSign spec.flags num spec.fieldWidth = (sign, n, spec.fieldWidth - sign.length)) :
    numberText num spec =
      let len := (decimalDigits n).length
      let zeropad := spec.flags.zeropad && !spec.flags.left
      let w := s16 (spec.fieldWidth - sign.length - fullPrecision spec len)
      let front := padText (!(zeropad || spec.flags.left)) ' ' w
      let w := if !(zeropad || spec.flags.left) then padRest w else w
      let fill := padText (!spec.flags.left) (if zeropad then '0' else ' ') w
      let w := if !spec.flags.left then padRest w else w
      front ++ sign ++ fill ++ List.replicate (fullPrecision spec len - len).toNat '0' ++
        ((decimalDigits n).map digitChar).reverse ++ List.replicate (padCount w) ' ' := by
  have digits : numberDigits 10 (if spec.flags.small then 0x20 else 0) n = (decimalDigits n).map digitChar := by
    refine numberDigits_decimal ?_
    split
    · exact .inr rfl
    · exact .inl rfl
  have plain : (spec.flags.special && ((10 : Nat) != 10)) = false := by simp
  unfold numberText
  rw [signs]
  simp only [base, digits, plain, Bool.false_and, Bool.false_eq_true, if_false, List.append_nil, List.length_map, fullPrecision]

/-- What the flags, the width and the precision make of a sign and digits. -/
theorem decimal_shape {num : Nat} {spec : PrintfSpec} (base : spec.base = 10) (word : num < 2 ^ 64)
    (width : -1 ≤ spec.fieldWidth ∧ spec.fieldWidth ≤ 2 ^ 14) (precision : -1 ≤ spec.precision ∧ spec.precision ≤ 2 ^ 14) :
    ∃ left right zeros, numberText num spec =
        List.replicate left ' ' ++ ((numberSign spec.flags num 0).1 ++ paddedDigits zeros (numberSign spec.flags num 0).2.1) ++
          List.replicate right ' ' ∧
      ((numberSign spec.flags num 0).1 ++ paddedDigits zeros (numberSign spec.flags num 0).2.1).length < 2 ^ 31 ∧
      ((numberText num spec).length : Int) = max spec.fieldWidth
        ((numberSign spec.flags num 0).1 ++ paddedDigits zeros (numberSign spec.flags num 0).2.1).length := by
  obtain ⟨signs, short⟩ := @numberSign_width spec.flags num spec.fieldWidth (by omega) width.2
  have small := @numberSign_word spec.flags num 0 word
  generalize (numberSign spec.flags num 0).1 = sign at *
  generalize (numberSign spec.flags num 0).2.1 = n at *
  have text := numberText_decimal base signs
  have length := decimalDigits_length small
  obtain ⟨k, kIs, kHigh⟩ : ∃ k : Nat, fullPrecision spec (decimalDigits n).length = k + (decimalDigits n).length ∧
      k + (decimalDigits n).length ≤ 2 ^ 14 := by
    refine ⟨(fullPrecision spec (decimalDigits n).length - (decimalDigits n).length).toNat, ?_, ?_⟩ <;>
      unfold fullPrecision <;> split <;> omega
  have zeros : ((k + (decimalDigits n).length : Int) - (decimalDigits n).length).toNat = k := by omega
  obtain ⟨w, wIs⟩ : ∃ w : Int, spec.fieldWidth - sign.length - (k + (decimalDigits n).length) = w := ⟨_, rfl⟩
  have wide : s16 w = w := s16_of (by omega) (by omega)
  have count : padCount w = w.toNat := padCount_of (by omega) (by omega)
  have none : padCount (padRest w) = 0 := padCount_padRest (by omega) (by omega)
  have none' : padCount (padRest (padRest w)) = 0 := by
    have rest := @padRest_of w (by omega) (by omega)
    exact padCount_padRest (by omega) (by omega)
  simp only [kIs, zeros, wIs, wide] at text
  cases leftAligned : spec.flags.left with
  | true =>
      refine ⟨0, w.toNat, k, ?_, ?_, ?_⟩
      · rw [text]
        simp [leftAligned, padText, count, paddedDigits]
      · rw [List.length_append, paddedDigits_length]
        omega
      · rw [text]
        simp [leftAligned, padText, count, paddedDigits]
        omega
  | false =>
      cases zeropad : spec.flags.zeropad with
      | true =>
          refine ⟨0, 0, w.toNat + k, ?_, ?_, ?_⟩
          · rw [text, paddedDigits, List.replicate_add]
            simp [leftAligned, zeropad, padText, count, none, -List.replicate_append_replicate]
          · rw [List.length_append, paddedDigits_length]
            omega
          · rw [text]
            simp [leftAligned, zeropad, padText, count, none, paddedDigits]
            omega
      | false =>
          refine ⟨w.toNat, 0, k, ?_, ?_, ?_⟩
          · rw [text]
            simp [leftAligned, zeropad, padText, count, none, none', paddedDigits]
          · rw [List.length_append, paddedDigits_length]
            omega
          · rw [text]
            simp [leftAligned, zeropad, padText, count, none, none', paddedDigits]
            omega

/-! ## The buffer -/

/-- What was written since a position. -/
def written (o : Out) (start : Nat) : List Char := (List.range (o.pos - start)).map fun i => o.mem (start + i)

theorem written_emit {b : Bound} {o : Out} {cs : List Char} (room : ∀ e, b = some e → o.pos + cs.length ≤ e) :
    written (emit b o cs) o.pos = cs := by
  refine List.ext_getElem ?_ fun i lt lt' => ?_
  · rw [written, List.length_map, List.length_range, emit_pos, Nat.add_sub_cancel_left]
  · have inside : before (o.pos + i) b = true := by
      cases b with
      | none => rfl
      | some e =>
          have := room e rfl
          exact decide_eq_true (by omega)
    simp only [written, List.getElem_map, List.getElem_range]
    rw [emit_mem, if_pos ⟨inside, Nat.le_add_right _ _⟩, Nat.add_sub_cancel_left, List.getElem?_eq_getElem lt', Option.getD_some]

/-! ## The round trip -/

/-- The value that the bits of a number stand for. -/
def numberValue (signed : Bool) (num : Nat) : Int := if signed then s64 num else num

theorem numberValue_unsigned (num : Nat) : numberValue false num = num := if_neg Bool.false_ne_true

theorem negated_false (m : Nat) : negated false m = m := if_neg Bool.false_ne_true

theorem negated_true (m : Nat) : negated true m = -m := if_pos rfl

theorem numeral_denotes {flags : Flags} {num : Nat} (space : flags.space = false) (word : num < 2 ^ 64) (k : Nat) :
    Denotes flags.sign 10 ((numberSign flags num 0).1 ++ paddedDigits k (numberSign flags num 0).2.1)
      (numberValue flags.sign num) := by
  have is (n : Nat) := paddedDigits_magnitude k n
  unfold numberSign
  cases signed : flags.sign with
  | false =>
      rw [numberValue_unsigned]
      exact ⟨[], false, _, [], num, (List.append_nil _).symm, .none, is num, .inl rfl, (negated_false num).symm⟩
  | true =>
      simp only [if_true, space, Bool.false_eq_true, if_false]
      split
      · rename_i negative
        have code : u64Sub 0 num = 2 ^ 64 - num := by
          unfold u64Sub
          omega
        refine ⟨['-'], true, _, [], _, (List.append_nil _).symm, .minus rfl, is _, .inl rfl, ?_⟩
        rw [numberValue, if_pos rfl, s64_eq, negated_true]
        simp only [code]
        omega
      · have value : numberValue true num = num := by
          rw [numberValue, if_pos rfl, s64_eq]
          omega
        rw [value]
        split
        · exact ⟨['+'], false, _, [], num, (List.append_nil _).symm, .plus, is num, .inl rfl, (negated_false num).symm⟩
        · exact ⟨[], false, _, [], num, (List.append_nil _).symm, .none, is num, .inl rfl, (negated_false num).symm⟩

/-- The conversion for the signs that a number was written with. -/
def conversionFor (signed : Bool) : Conversion := if signed then .kstrtoll else .kstrtoull

/-- The digits are exact, and a decimal number is padded around one numeral that the strict
    conversion reads as the number. -/
theorem decimal_round_trip :
    (∀ n, n < 2 ^ 64 → putDec n = (decimalDigits n).map digitChar ∧ (∀ d ∈ decimalDigits n, d < 10) ∧
      value 10 (decimalDigits n).reverse = n ∧ (decimalDigits n = [0] ∨ ∃ d, (decimalDigits n).getLast? = some d ∧ d ≠ 0)) ∧
    ∀ (b : Bound) (o : Out) (num : Nat) (spec : PrintfSpec), num < 2 ^ 64 → spec.base = 10 → spec.flags.space = false →
      -1 ≤ spec.fieldWidth ∧ spec.fieldWidth ≤ 2 ^ 14 → -1 ≤ spec.precision ∧ spec.precision ≤ 2 ^ 14 →
      (∀ e, b = some e → (number b o num spec).pos ≤ e) →
      ∃ left right numeral, written (number b o num spec) o.pos =
          List.replicate left ' ' ++ numeral ++ List.replicate right ' ' ∧
        (∀ res, (conversionFor spec.flags.sign).run numeral 10 res = (0, numberValue spec.flags.sign num)) ∧
        ((written (number b o num spec) o.pos).length : Int) = max spec.fieldWidth numeral.length := by
  refine ⟨fun n word => ⟨putDec_eq n, decimalDigits_lt n, value_decimalDigits n, ?_⟩, ?_⟩
  · rw [decimalDigits]
    split
    · exact .inl rfl
    · rename_i some
      have nonempty : Nat.digits 10 n ≠ [] := Nat.digits_ne_nil_iff_ne_zero.mpr some
      exact .inr ⟨_, List.getLast?_eq_some_getLast nonempty, Nat.getLast_digit_ne_zero 10 some⟩
  · intro b o num spec word base space width precision room
    have text := number_eq b o word (by omega : spec.precision < 2 ^ 15)
    rw [text, emit_pos] at room
    obtain ⟨left, right, zeros, shape, short, length⟩ := decimal_shape base word width precision
    have all := written_emit room
    refine ⟨left, right, _, by rw [text, all, shape], fun res => ?_, by rw [text, all, length]⟩
    have denotes := numeral_denotes space word zeros
    have noNul : nul ∉ (numberSign spec.flags num 0).1 ++ paddedDigits zeros (numberSign spec.flags num 0).2.1 := by
      intro member
      rcases List.mem_append.mp member with sign | digits
      · unfold numberSign at sign
        split at sign
        · split at sign
          · simp [nul] at sign
          · split at sign
            · simp [nul] at sign
            · split at sign <;> simp [nul] at sign
        · cases sign
      · exact paddedDigits_noNul _ _ digits
    cases signed : spec.flags.sign with
    | false =>
        rw [signed] at denotes
        refine read_back .kstrtoull noNul short denotes ?_ res
        have low : Conversion.kstrtoull.low = 0 := rfl
        have high : Conversion.kstrtoull.high = 2 ^ 64 - 1 := rfl
        rw [numberValue_unsigned, low, high]
        omega
    | true =>
        rw [signed] at denotes
        refine read_back .kstrtoll noNul short denotes ?_ res
        have low : Conversion.kstrtoll.low = -2 ^ 63 := rfl
        have high : Conversion.kstrtoll.high = 2 ^ 63 - 1 := rfl
        rw [numberValue, if_pos rfl, s64_eq, low, high]
        omega

/-- `%+08lld`. -/
def signedSpec : PrintfSpec where
  type := .longLong
  flags := ⟨true, true, true, false, false, false, false⟩
  base := 10
  qualifier := 'L'
  fieldWidth := 8
  precision := -1

theorem minus_twelve_read_back :
    ∃ left right numeral, written (number none ⟨0, fun _ => nul⟩ (2 ^ 64 - 12) signedSpec) 0 =
        List.replicate left ' ' ++ numeral ++ List.replicate right ' ' ∧
      (∀ res, kstrtoll numeral 10 res = (0, numberValue true (2 ^ 64 - 12))) ∧
      ((written (number none ⟨0, fun _ => nul⟩ (2 ^ 64 - 12) signedSpec) 0).length : Int) = max (8 : Int) numeral.length :=
  decimal_round_trip.2 none ⟨0, fun _ => nul⟩ (2 ^ 64 - 12) signedSpec (by decide) rfl rfl (by decide) (by decide) nofun

end Miracle.Vsprintf
