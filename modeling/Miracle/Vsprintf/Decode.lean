import Miracle.Strtox.Basic
import Miracle.Vsprintf.Output

/-! # Formats

`format_decode` reads the next token of a format: a piece of plain text, or a conversion as far as
its next argument.  A `*` ends a call early, and the next call continues from the type that is left
in the specification.
-/

namespace Miracle.Vsprintf

open Strtox

/-- Reduction of a value to the range of an `int`. -/
def s32 (n : Int) : Int := n.bmod (2 ^ 32)

/-- `skip_atoi`: the number and what follows it. -/
def skipAtoi : List Char → Int → Int × List Char
  | [], i => (i, [])
  | c :: s, i => if isdigit c then skipAtoi s (s32 (i * 10 + (c.toNat - '0'.toNat))) else (i, c :: s)

def isalnum (c : Char) : Bool :=
  isdigit c ∨ ('A' ≤ c ∧ c ≤ 'Z') ∨ ('a' ≤ c ∧ c ≤ 'z') ∨
    (192 ≤ c.toNat ∧ c.toNat ≤ 255 ∧ c.toNat ≠ 215 ∧ c.toNat ≠ 247)

/-- `-1`, as a `u8`. -/
def noQualifier : Char := Char.ofNat 255

def Flags.zero : Flags where
  zeropad := false
  sign := false
  plus := false
  space := false
  left := false
  small := false
  special := false

def PrintfSpec.zero : PrintfSpec where
  type := .none
  flags := .zero
  base := 0
  qualifier := nul
  fieldWidth := 0
  precision := 0

/-- The loop over the flags. -/
def decodeFlags : List Char → Flags → List Char × Flags
  | [], flags => ([], flags)
  | c :: fmt, flags =>
      match c with
      | '-' => decodeFlags fmt { flags with left := true }
      | '+' => decodeFlags fmt { flags with plus := true }
      | ' ' => decodeFlags fmt { flags with space := true }
      | '#' => decodeFlags fmt { flags with special := true }
      | '0' => decodeFlags fmt { flags with zeropad := true }
      | _ => (c :: fmt, flags)

/-- The type of a number. -/
def integerType (qualifier : Char) (sign : Bool) : FormatType :=
  if qualifier = 'L' then .longLong
  else if qualifier = 'l' then if sign then .long else .ulong
  else if tolower qualifier = 'z'.toNat then .sizeT
  else if qualifier = 't' then .ptrdiff
  else if qualifier = 'H' then if sign then .byte else .ubyte
  else if qualifier = 'h' then if sign then .short else .ushort
  else if sign then .int else .uint

/-- The switch over the conversion. -/
def decodeConversion (fmt : List Char) (spec : PrintfSpec) : List Char × PrintfSpec :=
  let integer (base : Nat) (flags : Flags) :=
    (fmt.drop 1, { spec with base := base, flags := flags, type := integerType spec.qualifier flags.sign })
  match charAt fmt 0 with
  | 'c' => (fmt.drop 1, { spec with base := 10, type := .char })
  | 's' => (fmt.drop 1, { spec with base := 10, type := .str })
  | 'p' => (fmt, { spec with base := 10, type := .ptr })
  | '%' => (fmt.drop 1, { spec with base := 10, type := .percentChar })
  | 'o' => integer 8 spec.flags
  | 'x' => integer 16 { spec.flags with small := true }
  | 'X' => integer 16 spec.flags
  | 'd' => integer 10 { spec.flags with sign := true }
  | 'i' => integer 10 { spec.flags with sign := true }
  | 'u' => integer 10 spec.flags
  | _ => (fmt, { spec with base := 10, type := .invalid })

/-- The conversion qualifier. -/
def decodeQualifier (fmt : List Char) (spec : PrintfSpec) : List Char × PrintfSpec :=
  let c := charAt fmt 0
  if c = 'h' ∨ tolower c = 'l'.toNat ∨ tolower c = 'z'.toNat ∨ c = 't' then
    let fmt := fmt.drop 1
    if c = charAt fmt 0 then
      if c = 'l' then decodeConversion (fmt.drop 1) { spec with qualifier := 'L' }
      else if c = 'h' then decodeConversion (fmt.drop 1) { spec with qualifier := 'H' }
      else decodeConversion fmt { spec with qualifier := c }
    else decodeConversion fmt { spec with qualifier := c }
  else decodeConversion fmt { spec with qualifier := noQualifier }

/-- The precision. -/
def decodePrecision (fmt : List Char) (spec : PrintfSpec) : List Char × PrintfSpec :=
  if charAt fmt 0 = '.' then
    let fmt := fmt.drop 1
    if isdigit (charAt fmt 0) then
      let (i, fmt) := skipAtoi fmt 0
      decodeQualifier fmt { spec with precision := if s16 i < 0 then 0 else s16 i }
    else if charAt fmt 0 = '*' then (fmt.drop 1, { spec with precision := -1, type := .precision })
    else decodeQualifier fmt { spec with precision := -1 }
  else decodeQualifier fmt { spec with precision := -1 }

/-- The field width. -/
def decodeWidth (fmt : List Char) (spec : PrintfSpec) : List Char × PrintfSpec :=
  if isdigit (charAt fmt 0) then
    let (i, fmt) := skipAtoi fmt 0
    decodePrecision fmt { spec with fieldWidth := s16 i }
  else if charAt fmt 0 = '*' then (fmt.drop 1, { spec with fieldWidth := -1, type := .width })
  else decodePrecision fmt { spec with fieldWidth := -1 }

/-- `format_decode`: what is left of the format, and the specification. -/
def formatDecode (fmt : List Char) (spec : PrintfSpec) : List Char × PrintfSpec :=
  if spec.type = .width then
    decodePrecision fmt (if spec.fieldWidth < 0 then
      { spec with fieldWidth := s16 (-spec.fieldWidth), flags := { spec.flags with left := true }, type := .none }
    else { spec with type := .none })
  else if spec.type = .precision then
    decodeQualifier fmt (if spec.precision < 0 then { spec with precision := 0, type := .none } else { spec with type := .none })
  else
    let text := fmt.takeWhile fun c => c ≠ '%' ∧ c ≠ nul
    if text ≠ [] ∨ charAt fmt 0 = nul then (fmt.drop text.length, { spec with type := .none })
    else
      let (fmt, flags) := decodeFlags (fmt.drop 1) .zero
      decodeWidth fmt { spec with type := .none, flags := flags }

/-! ## Every call makes progress -/

theorem skipAtoi_length (s : List Char) (i : Int) : (skipAtoi s i).2.length ≤ s.length := by
  induction s generalizing i with
  | nil => exact le_rfl
  | cons c s ih =>
      rw [skipAtoi]
      split
      · exact (ih _).trans (Nat.le_succ _)
      · exact le_rfl

theorem decodeFlags_length (fmt : List Char) (flags : Flags) : (decodeFlags fmt flags).1.length ≤ fmt.length := by
  fun_induction decodeFlags fmt flags with
  | case1 => exact le_rfl
  | case2 _ _ ih | case3 _ _ ih | case4 _ _ ih | case5 _ _ ih | case6 _ _ ih => exact ih.trans (Nat.le_succ _)
  | case7 => exact le_rfl

/-- The next call continues with a width or a precision. -/
def Pending (type : FormatType) : Prop := type = .width ∨ type = .precision

instance : DecidablePred Pending := fun _ => inferInstanceAs (Decidable (_ ∨ _))

/-- What is left to be decoded. -/
def todo (fmt : List Char) (spec : PrintfSpec) : Nat := 2 * fmt.length + if Pending spec.type then 1 else 0

theorem drop_length_le (s : List Char) (n : Nat) : (s.drop n).length ≤ s.length := (List.length_drop ..).trans_le (Nat.sub_le _ _)

theorem drop_one_length {s : List Char} {c : Char} (first : charAt s 0 = c) (some : c ≠ nul) : (s.drop 1).length < s.length := by
  cases s with
  | nil => exact absurd first.symm some
  | cons c s => exact Nat.lt_succ_self _

theorem integerType_done (qualifier : Char) (sign : Bool) : ¬ Pending (integerType qualifier sign) := by
  unfold integerType Pending
  split_ifs <;> simp

theorem decodeConversion_done (fmt : List Char) (spec : PrintfSpec) : ¬ Pending (decodeConversion fmt spec).2.type := by
  unfold decodeConversion
  simp only
  split
  all_goals first | exact integerType_done _ _ | simp [Pending]

theorem decodeConversion_length (fmt : List Char) (spec : PrintfSpec) : (decodeConversion fmt spec).1.length ≤ fmt.length := by
  unfold decodeConversion
  simp only
  split
  all_goals first | exact drop_length_le _ _ | exact le_rfl

theorem decodeQualifier_todo (fmt : List Char) (spec : PrintfSpec) : todo (decodeQualifier fmt spec).1 (decodeQualifier fmt spec).2 ≤ 2 * fmt.length := by
  have conversion (rest : List Char) (spec : PrintfSpec) (le : rest.length ≤ fmt.length) :
      todo (decodeConversion rest spec).1 (decodeConversion rest spec).2 ≤ 2 * fmt.length := by
    have left := (decodeConversion_length rest spec).trans le
    rw [todo, if_neg (decodeConversion_done rest spec)]
    omega
  unfold decodeQualifier
  simp only [List.drop_drop]
  split_ifs
  all_goals exact conversion _ _ (by first | exact drop_length_le _ _ | exact le_rfl)

theorem decodePrecision_todo (fmt : List Char) (spec : PrintfSpec) : todo (decodePrecision fmt spec).1 (decodePrecision fmt spec).2 ≤ 2 * fmt.length := by
  have qualifier (rest : List Char) (spec : PrintfSpec) (le : rest.length ≤ fmt.length) :
      todo (decodeQualifier rest spec).1 (decodeQualifier rest spec).2 ≤ 2 * fmt.length := by
    have left := decodeQualifier_todo rest spec
    omega
  unfold decodePrecision
  split
  · rename_i point
    have shorter := drop_one_length point (by decide)
    simp only
    split
    · exact qualifier _ _ ((skipAtoi_length _ _).trans (drop_length_le _ _))
    · split
      · have further := drop_length_le (fmt.drop 1) 1
        simp only [todo]
        split <;> omega
      · exact qualifier _ _ (drop_length_le _ _)
  · exact qualifier _ _ le_rfl

theorem decodeWidth_todo (fmt : List Char) (spec : PrintfSpec) : todo (decodeWidth fmt spec).1 (decodeWidth fmt spec).2 ≤ 2 * fmt.length := by
  unfold decodeWidth
  split
  · have left := decodePrecision_todo (skipAtoi fmt 0).2 { spec with fieldWidth := s16 (skipAtoi fmt 0).1 }
    have shorter := skipAtoi_length fmt 0
    simp only
    omega
  · split
    · rename_i star
      have shorter := drop_one_length star (by decide)
      simp only [todo]
      split <;> omega
    · exact decodePrecision_todo _ _

theorem formatDecode_todo {fmt : List Char} (spec : PrintfSpec) (more : charAt fmt 0 ≠ nul) :
    todo (formatDecode fmt spec).1 (formatDecode fmt spec).2 < todo fmt spec := by
  unfold formatDecode
  split
  · rename_i width
    have pending : todo fmt spec = 2 * fmt.length + 1 := by rw [todo, if_pos (.inl width)]
    rw [pending]
    exact Nat.lt_succ_of_le (decodePrecision_todo _ _)
  · split
    · rename_i precision
      have pending : todo fmt spec = 2 * fmt.length + 1 := by rw [todo, if_pos (.inr precision)]
      rw [pending]
      exact Nat.lt_succ_of_le (decodeQualifier_todo _ _)
    · rename_i width precision
      have fresh : todo fmt spec = 2 * fmt.length := by rw [todo, if_neg (fun both => both.elim width precision), Nat.add_zero]
      rw [fresh]
      simp only
      split
      · rename_i plain
        have some := plain.resolve_right more
        have long := (List.takeWhile_prefix (fun c => decide (c ≠ '%' ∧ c ≠ nul)) (l := fmt)).length_le
        have pos := List.length_pos_iff.mpr some
        have none : ¬ Pending FormatType.none := by simp [Pending]
        simp only [todo, if_neg none, List.length_drop]
        omega
      · have shorter : (fmt.drop 1).length < fmt.length := drop_one_length rfl more
        have flags := decodeFlags_length (fmt.drop 1) .zero
        have left := decodeWidth_todo (decodeFlags (fmt.drop 1) .zero).1 { spec with type := .none, flags := (decodeFlags (fmt.drop 1) .zero).2 }
        omega

end Miracle.Vsprintf
