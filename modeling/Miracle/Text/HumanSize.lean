import Miracle.Text.SizeText

/-! # What the text of a size says

The number of digits is chosen before half a unit of the last digit is added.  Where that carries
into another digit of the whole part, or up to the divisor, a digit too many is printed; the error
stays below a unit of the last digit.
-/

namespace Miracle.Text

open Strtox Vsprintf Scale

/-! ## The call -/

theorem roundUp_eq {size rest j : Nat} (less : rest < 1000) (few : j ≤ 2) :
    roundUp size rest j = some ((1000 * size + rest + half j) / 1000, (1000 * size + rest + half j) % 1000) := by
  have half_eq : rounding[j]? = some (half j) ∧ half j ≤ 500 := by
    have all : ∀ j ≤ 2, rounding[j]? = some (half j) ∧ half j ≤ 500 := by decide
    exact all j few
  have word : u32 (rest + half j) = rest + half j := Nat.mod_eq_of_lt (by omega)
  rw [roundUp, half_eq.1]
  change some (if 1000 ≤ u32 (rest + half j) then (size + 1, u32 (rest + half j) - 1000) else (size, u32 (rest + half j))) = _
  rw [word]
  split
  · exact congrArg some (Prod.ext (by simp only; omega) (by simp only; omega))
  · exact congrArg some (Prod.ext (by simp only; omega) (by simp only; omega))

/-- The index of the unit. -/
def unitIndex (d size blkSize : Nat) : Nat :=
  steps (2 ^ 32) d blkSize + steps (2 ^ 32) d size + steps d d (reduced d size blkSize)

theorem divisor_range (units : Units) : 1000 ≤ units.divisor ∧ units.divisor ≤ 1024 := by
  cases units with
  | ten => exact ⟨by decide, by decide⟩
  | two => exact ⟨by decide, by decide⟩

theorem decimals_le (n : Nat) : decimals n ≤ 2 := by
  rw [decimals_eq]
  split
  · exact le_rfl
  · split <;> decide

variable {units : Units} {rounds size blkSize len : Nat}

theorem stringGetSize_eq (wide : size < 2 ^ 64) (wide' : blkSize < 2 ^ 64) (some_ : size ≠ 0) (some' : blkSize ≠ 0) (enough : 65 ≤ rounds)
    {t j : Nat} (thousand : thousandths units.divisor (reduced units.divisor size blkSize) = t) (digits : decimals (t / 1000) = j)
    (buf : Nat → Char) (tmp : Nat → Char) : stringGetSize rounds size blkSize units buf len tmp =
      (printTmp (Function.update tmp 0 nul) ((t + half j) % 1000) j).bind fun tmp =>
        printSize units ((t + half j) / 1000) (unitIndex units.divisor size blkSize) tmp buf len := by
  obtain ⟨large, small⟩ := divisor_range units
  have two : 1 < units.divisor := by omega
  have pos : 0 < 2 ^ 32 := Nat.two_pow_pos 32
  have short {x : Nat} (bound : Nat) (positive : 0 < bound) (less : x < 2 ^ 64) : steps bound units.divisor x < rounds := by
    have power : 2 ^ 64 ≤ units.divisor ^ 64 := Nat.pow_le_pow_left two 64
    have le := @steps_le_of_lt bound units.divisor x 64 two positive (less.trans_le power)
    omega
  have below : scaled (2 ^ 32) units.divisor size < 2 ^ 32 := scaled_lt two pos
  have below' : scaled (2 ^ 32) units.divisor blkSize < 2 ^ 32 := scaled_lt two pos
  have product : reduced units.divisor size blkSize < 2 ^ 64 := by
    calc reduced units.divisor size blkSize < 2 ^ 32 * 2 ^ 32 := Nat.mul_lt_mul'' below below'
      _ = 2 ^ 64 := by decide
  have nonzero : 0 < reduced units.divisor size blkSize :=
    Nat.mul_pos (scaled_pos two pos (Nat.pos_of_ne_zero some_) (by omega)) (scaled_pos two pos (Nat.pos_of_ne_zero some') (by omega))
  have whole : u64 (scaled (2 ^ 32) units.divisor size * scaled (2 ^ 32) units.divisor blkSize) = reduced units.divisor size blkSize :=
    Nat.mod_eq_of_lt product
  obtain ⟨value, rest⟩ := thousandths_div large (reduced units.divisor size blkSize)
  have last := lastRemainder_lt large (reduced units.divisor size blkSize)
  have size_lt : scaled units.divisor units.divisor (reduced units.divisor size blkSize) < units.divisor := scaled_lt two (by omega)
  have size_pos := @scaled_pos units.divisor units.divisor _ two (by omega) nonzero le_rfl
  have word : u32 (scaled units.divisor units.divisor (reduced units.divisor size blkSize)) =
      scaled units.divisor units.divisor (reduced units.divisor size blkSize) := Nat.mod_eq_of_lt (by omega)
  have remainder : (if steps units.divisor units.divisor (reduced units.divisor size blkSize) = 0 then 0
      else lastRemainder units.divisor (reduced units.divisor size blkSize)) = lastRemainder units.divisor (reduced units.divisor size blkSize) := by
    by_cases none : steps units.divisor units.divisor (reduced units.divisor size blkSize) = 0
    · rw [if_pos none, lastRemainder, if_pos none]
    · exact if_neg none
  have decimal : (if units = .two then u32 (lastRemainder units.divisor (reduced units.divisor size blkSize) * 1000) / 2 ^ 10
      else lastRemainder units.divisor (reduced units.divisor size blkSize)) =
      lastRemainder units.divisor (reduced units.divisor size blkSize) * 1000 / units.divisor := by
    cases units with
    | ten =>
        rw [if_neg (by decide)]
        exact (Nat.mul_div_cancel _ (by decide)).symm
    | two =>
        have fits : u32 (lastRemainder (Units.divisor .two) (reduced (Units.divisor .two) size blkSize) * 1000) =
          lastRemainder (Units.divisor .two) (reduced (Units.divisor .two) size blkSize) * 1000 := Nat.mod_eq_of_lt (by omega)
        rw [if_pos rfl, fits]
        rfl
  have digits' : decimals (scaled units.divisor units.divisor (reduced units.divisor size blkSize)) = j := by rw [← value, thousand, digits]
  have few : j ≤ 2 := digits ▸ decimals_le _
  have parts : 1000 * scaled units.divisor units.divisor (reduced units.divisor size blkSize) +
      lastRemainder units.divisor (reduced units.divisor size blkSize) * 1000 / units.divisor = t := by rw [← thousand, thousandths]
  have rounded := @roundUp_eq (scaled units.divisor units.divisor (reduced units.divisor size blkSize))
    (lastRemainder units.divisor (reduced units.divisor size blkSize) * 1000 / units.divisor) j (by rw [← rest]; exact Nat.mod_lt _ (by decide)) few
  rw [parts] at rounded
  unfold stringGetSize
  simp only [if_neg some', if_neg some_, reduce_eq two (short _ pos wide'), reduce_eq two (short _ pos wide), Option.bind_eq_bind, Option.bind_some,
    whole, lower_eq two (short _ (by omega) product), word, precision_eq (by omega : 3 ≤ rounds) size_pos (by omega), remainder, decimal, digits',
    rounded, Nat.zero_add, unitIndex]

/-- What is printed, whether there is room for it or not. -/
theorem size_printed (wide : size < 2 ^ 64) (wide' : blkSize < 2 ^ 64) (some_ : size ≠ 0) (some' : blkSize ≠ 0) (enough : 65 ≤ rounds)
    {t j : Nat} (thousand : thousandths units.divisor (reduced units.divisor size blkSize) = t) (digits : decimals (t / 1000) = j)
    (bounded : t < 2 ^ 30) (pos : 0 < len) (int : len < 2 ^ 31) (buf tmp : Nat → Char) :
    ∃ out, stringGetSize rounds size blkSize units buf len tmp = some out ∧ (∀ k, len ≤ k → out.buf k = buf k) ∧ (∀ k, 8 ≤ k → out.tmp k = tmp k) ∧
      ((sizeText units ((t + half j) / 1000) j ((t + half j) % 1000 / 10 ^ (3 - j)) (unitIndex units.divisor size blkSize)).length < len →
        StringAt out.buf (sizeText units ((t + half j) / 1000) j ((t + half j) % 1000 / 10 ^ (3 - j)) (unitIndex units.divisor size blkSize))) := by
  have few : j ≤ 2 := digits ▸ decimals_le _
  have half_le : half j ≤ 500 := by
    have all : ∀ j ≤ 2, half j ≤ 500 := by decide
    exact all j few
  obtain ⟨tmp', printed, holds, outside⟩ := @printTmp_text (Function.update tmp 0 nul) ((t + half j) % 1000) j (Nat.mod_lt _ (by decide)) few
    (Function.update_self ..)
  obtain ⟨out, done, text, beyond, same⟩ := @printSize_text units ((t + half j) / 1000) j _ (unitIndex units.divisor size blkSize) len tmp' buf (by omega)
    few holds pos int
  refine ⟨out, ?_, beyond, fun k above => ?_, text⟩
  · rw [stringGetSize_eq wide wide' some_ some' enough thousand digits, printed]
    exact done
  · rw [same, outside k above, Function.update_of_ne (by omega)]

/-! ## Carries -/

theorem half_cases {j : Nat} (few : j ≤ 2) :
    ∃ h, half j = h ∧ 10 ^ (3 - j) = 2 * h ∧ 2 * h * 10 ^ j = 1000 ∧ 5 ≤ h := by
  have all : ∀ j ≤ 2, 10 ^ (3 - j) = 2 * half j ∧ 2 * half j * 10 ^ j = 1000 ∧ 5 ≤ half j := by decide
  exact ⟨half j, rfl, all j few⟩

/-- The digits are the ones of the number before rounding unless it carries. -/
theorem not_carries_iff {d t : Nat} (large : 1000 ≤ d) :
    ¬ Carries d t ↔ decimals ((t + half (decimals (t / 1000))) / 1000) = decimals (t / 1000) ∧ (t + half (decimals (t / 1000))) / 1000 < d := by
  have halves : half 2 = 5 ∧ half 1 = 50 ∧ half 0 = 500 := by decide
  obtain ⟨five, fifty, hundreds⟩ := halves
  have count (n : Nat) : n < 10 ∧ decimals n = 2 ∨ 10 ≤ n ∧ n < 100 ∧ decimals n = 1 ∨ 100 ≤ n ∧ decimals n = 0 := by
    rw [decimals_eq]
    split_ifs <;> omega
  rw [Carries]
  rcases count (t / 1000) with ⟨one, digits⟩ | ⟨ten, two, digits⟩ | ⟨hundred, digits⟩
  · have after := count ((t + 5) / 1000)
    rw [digits, five]
    omega
  · have after := count ((t + 50) / 1000)
    rw [digits, fifty]
    omega
  · have after := count ((t + 500) / 1000)
    rw [digits, hundreds]
    omega

/-- The number is within one unit of its last digit. -/
theorem error_lt {t j unit product : Nat} (few : j ≤ 2) (pos : 0 < unit) (low : t * unit ≤ 1000 * product) (high : 1000 * product < (t + 3) * unit) :
    (t + half j) / 10 ^ (3 - j) * unit < product * 10 ^ j + unit ∧ product * 10 ^ j < (t + half j) / 10 ^ (3 - j) * unit + unit := by
  obtain ⟨h, is, step, whole, five⟩ := half_cases few
  rw [is, step]
  have down : (t + h) / (2 * h) * (2 * h) ≤ t + h := Nat.div_mul_le_self _ _
  have up : t + h < ((t + h) / (2 * h) + 1) * (2 * h) := by
    rw [Nat.mul_comm]
    exact Nat.lt_mul_div_succ _ (by omega)
  generalize (t + h) / (2 * h) = n at *
  generalize 10 ^ j = scale at *
  have thousand : product * scale * (2 * h) = 1000 * product := by
    rw [← whole]
    ring
  have some : h * unit < 2 * h * unit := Nat.mul_lt_mul_of_pos_right (by omega) pos
  constructor
  · refine Nat.lt_of_mul_lt_mul_right (a := 2 * h) ?_
    calc n * unit * (2 * h) = n * (2 * h) * unit := by ring
      _ ≤ (t + h) * unit := Nat.mul_le_mul_right _ down
      _ = t * unit + h * unit := Nat.add_mul ..
      _ < 1000 * product + 2 * h * unit := Nat.add_lt_add_of_le_of_lt low some
      _ = (product * scale + unit) * (2 * h) := by
        rw [← thousand]
        ring
  · refine Nat.lt_of_mul_lt_mul_right (a := 2 * h) ?_
    have near : t + 3 ≤ (n + 1) * (2 * h) := by omega
    calc product * scale * (2 * h) = 1000 * product := thousand
      _ < (t + 3) * unit := high
      _ ≤ (n + 1) * (2 * h) * unit := Nat.mul_le_mul_right _ near
      _ = (n * unit + unit) * (2 * h) := by ring

/-! ## What is said about the product -/

/-- A whole part below the divisor with as many digits behind the point as make three figures, and the name of a unit; the number of these units is
    within one of the last digit of the product. -/
def Describes (units : Units) (size blkSize : Nat) (text : List Char) : Prop :=
  ∃ n f i, 0 < n ∧ n < units.divisor ∧ f < 10 ^ decimals n ∧ text = sizeText units n (decimals n) f i ∧
    (n * 10 ^ decimals n + f) * units.divisor ^ i < size * blkSize * 10 ^ decimals n + units.divisor ^ i ∧
    size * blkSize * 10 ^ decimals n < (n * 10 ^ decimals n + f) * units.divisor ^ i + units.divisor ^ i

/-- In a buffer of nine characters or more the call leaves a text that describes the product. -/
def Described (units : Units) (size blkSize : Nat) : Prop := ∀ (rounds : Nat) (buf : Nat → Char) (len : Nat) (tmp : Nat → Char), 65 ≤ rounds →
  9 ≤ len → len < 2 ^ 31 → ∃ out, stringGetSize rounds size blkSize units buf len tmp = some out ∧ Describes units size blkSize (stringIn out.buf len)

theorem reduce_lt {d rounds x i y k : Nat} (done : reduce d rounds x i = some (y, k)) : y < 2 ^ 32 := by
  induction rounds generalizing x i with
  | zero => cases done
  | succ rounds ih =>
      rw [reduce] at done
      split at done
      · exact ih done
      · rename_i small
        cases done
        rw [not_not, Nat.shiftRight_eq_div_pow, Nat.div_eq_zero_iff] at small
        omega

theorem sizeText_length {units : Units} {n j f i : Nat} : (sizeText units n j f i).length ≤ (decimalDigits n).length + (if j = 0 then 0 else j + 1) + 4 := by
  have unit := (unit_plain units i).1
  rw [sizeText, List.length_append, List.length_append, List.length_cons, fraction_length, digitsText, List.length_reverse, List.length_map]
  omega

theorem described_iff (wide : size < 2 ^ 64) (wide' : blkSize < 2 ^ 64) (some_ : size ≠ 0) (some' : blkSize ≠ 0) :
    Described units size blkSize ↔ ¬ Carries units.divisor (thousandths units.divisor (reduced units.divisor size blkSize)) := by
  obtain ⟨large, small⟩ := divisor_range units
  obtain ⟨value, rest⟩ := thousandths_div large (reduced units.divisor size blkSize)
  obtain ⟨low, high⟩ := product_bounds large small size blkSize
  have two : 1 < units.divisor := by omega
  have less := @scaled_lt units.divisor units.divisor (reduced units.divisor size blkSize) two (by omega)
  have first : 0 < scaled units.divisor units.divisor (reduced units.divisor size blkSize) :=
    scaled_pos two (by omega) (Nat.mul_pos (scaled_pos two (Nat.two_pow_pos 32) (Nat.pos_of_ne_zero some_) (by omega))
      (scaled_pos two (Nat.two_pow_pos 32) (Nat.pos_of_ne_zero some') (by omega))) le_rfl
  rw [Nat.add_comm (steps (2 ^ 32) _ size)] at low high
  change _ * units.divisor ^ unitIndex units.divisor size blkSize ≤ _ at low
  change _ < _ * units.divisor ^ unitIndex units.divisor size blkSize at high
  rw [not_carries_iff large]
  have printed {rounds len : Nat} (enough : 65 ≤ rounds) := @size_printed units rounds size blkSize len wide wide' some_ some' enough
    (thousandths units.divisor (reduced units.divisor size blkSize)) _ rfl rfl
  generalize thousandths units.divisor (reduced units.divisor size blkSize) = t at *
  generalize digits : decimals (t / 1000) = j at *
  have few : j ≤ 2 := digits ▸ decimals_le _
  have bounded : t < 1024000 := by omega
  have half_le : half j ≤ 500 := by
    have all : ∀ j ≤ 2, half j ≤ 500 := by decide
    exact all j few
  have plain := sizeText_plain units ((t + half j) / 1000) j ((t + half j) % 1000 / 10 ^ (3 - j)) (unitIndex units.divisor size blkSize)
  have noNul : nul ∉ sizeText units ((t + half j) / 1000) j ((t + half j) % 1000 / 10 ^ (3 - j)) (unitIndex units.divisor size blkSize) :=
    fun mem => (plain nul mem).1 rfl
  have length := @sizeText_length units ((t + half j) / 1000) j ((t + half j) % 1000 / 10 ^ (3 - j)) (unitIndex units.divisor size blkSize)
  have count : (decimalDigits ((t + half j) / 1000)).length ≤ 4 := by
    rw [decimalDigits]
    split
    · decide
    · rw [Nat.digits_length_le_iff (by decide)]
      omega
  constructor
  · intro described
    obtain ⟨out, run, -, -, text⟩ := @printed 65 16 le_rfl (by omega) (by decide) (by decide) (fun _ => nul) (fun _ => nul)
    obtain ⟨out', run', n, f, i, pos, below, -, eq, -⟩ := described 65 (fun _ => nul) 16 (fun _ => nul) le_rfl (by decide) (by decide)
    rw [run] at run'
    cases run'
    have room : (sizeText units ((t + half j) / 1000) j ((t + half j) % 1000 / 10 ^ (3 - j)) (unitIndex units.divisor size blkSize)).length < 16 := by
      split at length <;> omega
    rw [(text room).stringIn noNul room] at eq
    obtain ⟨number, points⟩ := sizeText_inj eq
    rw [number]
    exact ⟨points.symm, below⟩
  · rintro ⟨same, below⟩ rounds buf len tmp enough wide int
    obtain ⟨out, run, -, -, text⟩ := @printed rounds len enough (by omega) (by omega) int buf tmp
    have figures : (decimalDigits ((t + half j) / 1000)).length + (if j = 0 then 0 else j + 1) ≤ 4 := by
      rw [decimals] at same
      split <;> omega
    have room : (sizeText units ((t + half j) / 1000) j ((t + half j) % 1000 / 10 ^ (3 - j)) (unitIndex units.divisor size blkSize)).length < len := by
      omega
    refine ⟨out, run, (t + half j) / 1000, (t + half j) % 1000 / 10 ^ (3 - j), unitIndex units.divisor size blkSize, by omega, below, ?_, ?_, ?_⟩
    · rw [same]
      obtain ⟨h, -, step, whole, five⟩ := half_cases few
      rw [step, Nat.div_lt_iff_lt_mul (by omega), Nat.mul_comm, whole]
      exact Nat.mod_lt _ (by decide)
    · rw [same]
      exact (text room).stringIn noNul room
    · rw [same]
      have number : (t + half j) / 1000 * 10 ^ j + (t + half j) % 1000 / 10 ^ (3 - j) = (t + half j) / 10 ^ (3 - j) := by
        obtain ⟨h, -, step, whole, five⟩ := half_cases few
        have parts := Nat.div_add_mod (t + half j) 1000
        have regroup : t + half j = 2 * h * ((t + half j) / 1000 * 10 ^ j) + (t + half j) % 1000 := by
          calc t + half j = 1000 * ((t + half j) / 1000) + (t + half j) % 1000 := parts.symm
            _ = 2 * h * ((t + half j) / 1000 * 10 ^ j) + (t + half j) % 1000 := by
              rw [← whole]
              ring
        conv_rhs => rw [regroup, step, Nat.mul_add_div (by omega)]
        rw [step]
      rw [number]
      exact error_lt few (Nat.pow_pos (by omega)) low high

/-- The call returns, without a product beyond 64 bits and without a write behind the buffer or behind `tmp`.  The text describes the product unless
    rounding carries into another digit or up to the divisor. -/
theorem string_get_size (units : Units) {size blkSize : Nat} (wide : size < 2 ^ 64) (wide' : blkSize < 2 ^ 64) (nonzero : size * blkSize ≠ 0) :
    (∀ (rounds : Nat) (buf : Nat → Char) (len : Nat) (tmp : Nat → Char), 65 ≤ rounds → 9 ≤ len → len < 2 ^ 31 →
      ∃ out, stringGetSize rounds size blkSize units buf len tmp = some out ∧ (∀ k, len ≤ k → out.buf k = buf k) ∧
        ∀ k, 8 ≤ k → out.tmp k = tmp k) ∧
    (∀ rounds x y i i', reduce units.divisor rounds blkSize 0 = some (y, i) → reduce units.divisor rounds size i = some (x, i') → x * y < 2 ^ 64) ∧
    (Described units size blkSize ↔ ¬ Carries units.divisor (thousandths units.divisor (reduced units.divisor size blkSize))) := by
  have some_ : size ≠ 0 := fun zero => nonzero (by rw [zero, Nat.zero_mul])
  have some' : blkSize ≠ 0 := fun zero => nonzero (by rw [zero, Nat.mul_zero])
  refine ⟨fun rounds buf len tmp enough room int => ?_, fun rounds x y i i' second first => ?_, described_iff wide wide' some_ some'⟩
  · obtain ⟨large, small⟩ := divisor_range units
    obtain ⟨value, -⟩ := thousandths_div large (reduced units.divisor size blkSize)
    have less := @scaled_lt units.divisor units.divisor (reduced units.divisor size blkSize) (by omega) (by omega)
    obtain ⟨out, run, beyond, behind, -⟩ := @size_printed units rounds size blkSize len wide wide' some_ some' enough _ _ rfl rfl
      (by omega) (by omega) int buf tmp
    exact ⟨out, run, beyond, behind⟩
  · calc x * y < 2 ^ 32 * 2 ^ 32 := Nat.mul_lt_mul'' (reduce_lt first) (reduce_lt second)
      _ = 2 ^ 64 := by decide

/-- Half a million blocks of 512 bytes. -/
theorem half_million_blocks : Described .ten 500000 512 := by
  refine (string_get_size .ten (by decide) (by decide) (by decide)).2.2.mpr ?_
  unfold Carries
  decide

/-- 9999 bytes are printed as 10.00 kB. -/
theorem tenth_kilobyte_carries : ¬ Described .ten 9999 1 := by
  rw [described_iff (by decide) (by decide) (by decide) (by decide), not_not]
  unfold Carries
  decide

end Miracle.Text
