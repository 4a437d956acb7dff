import Miracle.Vsprintf.Truncation

/-! # Resources

`resource_string` collects its text in an array on the stack.  The brackets, the dash and the null
are stored without a look at the end of the array, so the texts before them have to leave room.
-/

namespace Miracle.Vsprintf

open Strtox

/-! ## The length of a number -/

theorem padCount_rest {w : Int} (low : -2 ^ 13 ≤ w) (high : w < 2 ^ 13) : padCount (padRest w) = 0 ∧ padCount (padRest (padRest w)) = 0 := by
  have rest := @padRest_of w (by omega) (by omega)
  exact ⟨padCount_padRest (by omega) (by omega), padCount_padRest (by omega) (by omega)⟩

/-- The characters of the prefix. -/
def prefixLength (num : Nat) (spec : PrintfSpec) : Nat :=
  let needPfx := spec.flags.special && spec.base != 10
  (if needPfx && (spec.base == 16 || !(num == 0)) then 1 else 0) + (if needPfx && spec.base == 16 then 1 else 0)

/-- A number without a sign fills its width or needs more room. -/
theorem numberText_length {num : Nat} {spec : PrintfSpec} (word : num < 2 ^ 64) (unsigned : spec.flags.sign = false) (right : spec.flags.left = false)
    (width : -1 ≤ spec.fieldWidth ∧ spec.fieldWidth < 2 ^ 12) (precision : -1 ≤ spec.precision ∧ spec.precision < 2 ^ 12) :
    (numberText num spec).length = max spec.fieldWidth.toNat
      (prefixLength num spec + max (numberDigits spec.base (if spec.flags.small then 0x20 else 0) num).length spec.precision.toNat) := by
  have digits := numberDigits_length spec.base (if spec.flags.small then 0x20 else 0) word
  have sign : numberSign spec.flags num spec.fieldWidth = ([], num, spec.fieldWidth) := by
    rw [numberSign, unsigned]
    rfl
  have shrunk : (if spec.flags.special && spec.base != 10 then
        if spec.base = 16 then s16 (spec.fieldWidth - 2) else if !(num == 0) then s16 (spec.fieldWidth - 1) else spec.fieldWidth
      else spec.fieldWidth) = spec.fieldWidth - prefixLength num spec := by
    have two : s16 (spec.fieldWidth - 2) = spec.fieldWidth - 2 := s16_of (by omega) (by omega)
    have one : s16 (spec.fieldWidth - 1) = spec.fieldWidth - 1 := s16_of (by omega) (by omega)
    rw [two, one, prefixLength]
    cases spec.flags.special && spec.base != 10 with
    | false => simp
    | true =>
        by_cases hexadecimal : spec.base = 16
        · simp [hexadecimal]
        · cases num == 0 <;> simp [hexadecimal]
  have short : prefixLength num spec ≤ 2 := by
    rw [prefixLength]
    split <;> split <;> omega
  unfold numberText
  simp only [sign, right, shrunk]
  generalize numberDigits spec.base (if spec.flags.small then 0x20 else 0) num = tmp at digits
  have prefixed : (if spec.flags.special && spec.base != 10 && (spec.base == 16 || !(num == 0)) then ['0'] else []).length +
      (if spec.flags.special && spec.base != 10 && spec.base == 16 then
        [Char.ofNat ('X'.toNat ||| if spec.flags.small then 0x20 else 0)] else []).length = prefixLength num spec := by
    rw [prefixLength]
    split <;> split <;> rfl
  generalize (if spec.flags.special && spec.base != 10 && (spec.base == 16 || !(num == 0)) then ['0'] else []) = first at *
  generalize (if spec.flags.special && spec.base != 10 && spec.base == 16 then
    [Char.ofNat ('X'.toNat ||| if spec.flags.small then 0x20 else 0)] else []) = second at *
  have enough : ∃ P : Int, (if (tmp.length : Int) > spec.precision then (tmp.length : Int) else spec.precision) = P ∧ tmp.length ≤ P ∧ P < 2 ^ 12 ∧
      P.toNat = max tmp.length spec.precision.toNat := by
    refine ⟨_, rfl, ?_, ?_, ?_⟩ <;> split <;> omega
  obtain ⟨P, isP, least, most, both⟩ := enough
  simp only [isP]
  have width' : s16 (spec.fieldWidth - prefixLength num spec - P) = spec.fieldWidth - prefixLength num spec - P := s16_of (by omega) (by omega)
  rw [width']
  have count := @padCount_of (spec.fieldWidth - prefixLength num spec - P) (by omega) (by omega)
  obtain ⟨none, none'⟩ := @padCount_rest (spec.fieldWidth - prefixLength num spec - P) (by omega) (by omega)
  cases spec.flags.zeropad with
  | true =>
      simp only [padText, List.length_append, List.length_replicate, List.length_reverse, Bool.not_false, Bool.and_true, Bool.true_or, Bool.not_true,
        Bool.false_eq_true, if_false, if_true, List.length_nil, count, none]
      omega
  | false =>
      simp only [padText, List.length_append, List.length_replicate, List.length_reverse, Bool.not_false, Bool.and_true, Bool.false_or,
        Bool.false_eq_true, if_false, if_true, List.length_nil, count, none, none']
      omega

/-- A number below a power of 16 has at most that many digits. -/
theorem shiftDigits_length_le (locase : Nat) {fuel num k : Nat} (small : num < 16 ^ k) (pos : 0 < k) :
    (shiftDigits 16 4 locase fuel num).length ≤ k := by
  induction fuel generalizing num k with
  | zero => exact Nat.zero_le k
  | succ fuel ih =>
      rw [shiftDigits, List.length_cons]
      split
      · rename_i more
        obtain ⟨k, rfl⟩ : ∃ k', k = k' + 1 := ⟨k - 1, by omega⟩
        have rest : num / 2 ^ 4 < 16 ^ k := by
          rw [Nat.div_lt_iff_lt_mul (by decide)]
          exact small.trans_eq (pow_succ 16 k)
        have some : 0 < k := by
          rcases Nat.eq_zero_or_pos k with rfl | some
          · rw [pow_zero] at rest
            omega
          · exact some
        have := ih rest some
        omega
      · exact pos

theorem numberDigits_hex {num locase k : Nat} (small : num < 16 ^ k) (pos : 0 < k) : (numberDigits 16 locase num).length ≤ k := by
  rw [numberDigits]
  split
  · exact pos
  · exact shiftDigits_length_le locase small pos

theorem numberDigits_dec {num locase : Nat} (word : num < 2 ^ 64) : (numberDigits 10 locase num).length ≤ 20 := by
  rw [numberDigits]
  split
  · exact Nat.succ_le_succ (Nat.zero_le _)
  · rw [if_neg (by decide), putDec_eq, List.length_map]
    exact decimalDigits_length word

/-! ## The texts of a resource -/

/-- What `resource_string` finds in the flags. -/
def Resource.has (res : Resource) (flag : Nat) : Bool := res.flags.toNat &&& flag ≠ 0

/-- The name of the kind, how its numbers are printed, and whether it is known. -/
def Resource.kind (res : Resource) : String × PrintfSpec × Bool :=
  if res.has 0x100 then ("io  ", ioSpec, true)
  else if res.has 0x200 then ("mem ", memSpec, true)
  else if res.has 0x400 then ("irq ", decSpec, true)
  else if res.has 0x800 then ("dma ", decSpec, true)
  else if res.has 0x1000 then ("bus ", busSpec, true)
  else ("??? ", memSpec, false)

def Resource.decoded (res : Resource) (fmt : List Char) : Bool := charAt fmt 0 = 'R' ∧ res.kind.2.2

/-- `%pR` prints the size of a resource that has no address yet. -/
def Resource.sized (res : Resource) (fmt : List Char) : Bool := res.decoded fmt ∧ res.has 0x20000000

/-- `*p++ = c`, where the array has to have room. -/
def unchecked (o : Out) (c : Char) : Option Out := if o.pos < symSize then some (put none o c) else none

def symString (p : Out) (s : String) : Out := string (some symSize) p (some s.toList) strSpec

def symNumber (p : Out) (num : BitVec 64) (spec : PrintfSpec) : Out := number (some symSize) p num.toNat spec

/-- The names of the flags. -/
def symFlags (res : Resource) (p : Out) : Out :=
  let p := if res.has 0x100000 then symString p " 64bit" else p
  let p := if res.has 0x2000 then symString p " pref" else p
  let p := if res.has 0x200000 then symString p " window" else p
  if res.has 0x10000000 then symString p " disabled" else p

/-- The bounds, with a dash between them, or the size. -/
def symBounds (res : Resource) (fmt : List Char) (p : Out) : Option Out :=
  if res.sized fmt then some (symNumber (symString p "size ") (res.stop - res.start + 1) res.kind.2.1)
  else
    let p := symNumber p res.start res.kind.2.1
    if res.start ≠ res.stop then (unchecked p '-').map fun p => symNumber p res.stop res.kind.2.1 else some p

/-- `resource_string` up to the null. -/
def resourceSym (res : Resource) (fmt : List Char) : Option Out := do
  let p ← unchecked .empty '['
  let p ← symBounds res fmt (symString p res.kind.1)
  let p := if res.decoded fmt then symFlags res p else symNumber (symString p " flags ") res.flags flagSpec
  let p ← unchecked p ']'
  unchecked p nul

/-- The bounds, or the size. -/
def Resource.bounds (res : Resource) (fmt : List Char) : List Char :=
  if res.sized fmt then "size ".toList ++ numberText (res.stop - res.start + 1).toNat res.kind.2.1
  else
    numberText res.start.toNat res.kind.2.1 ++ if res.start ≠ res.stop then '-' :: numberText res.stop.toNat res.kind.2.1 else []

/-- The flags by their names, or as a number. -/
def Resource.trailer (res : Resource) (fmt : List Char) : List Char :=
  if res.decoded fmt then
    (if res.has 0x100000 then " 64bit".toList else []) ++ ((if res.has 0x2000 then " pref".toList else []) ++
      ((if res.has 0x200000 then " window".toList else []) ++ if res.has 0x10000000 then " disabled".toList else []))
  else " flags ".toList ++ numberText res.flags.toNat flagSpec

/-- The text of a resource, without an array. -/
def Resource.text (res : Resource) (fmt : List Char) : List Char :=
  '[' :: (res.kind.1.toList ++ res.bounds fmt ++ res.trailer fmt ++ [']'])

/-! ## Inside the array -/

/-- What has been written so far. -/
def holding (cs : List Char) : Out := emit none .empty cs

theorem written_pos (cs : List Char) : (holding cs).pos = cs.length := by
  rw [holding, emit_pos]
  exact Nat.zero_add _

theorem unchecked_written {cs : List Char} (room : cs.length < symSize) (c : Char) : unchecked (holding cs) c = some (holding (cs ++ [c])) := by
  rw [unchecked, written_pos, if_pos room, holding, holding, emit_append]
  rfl

theorem symString_written {cs : List Char} {s : String} (short : s.toList.length ≤ 10) (room : cs.length + s.toList.length ≤ symSize) :
    symString (holding cs) s = holding (cs ++ s.toList) := by
  have len : min s.toList.length ((10 : Int) % 2 ^ 64).toNat = s.toList.length := Nat.min_eq_left short
  have emitted : symString (holding cs) s = emit (some symSize) (holding cs) s.toList := by
    have full : ¬ (s.toList.length : Int) < -1 := by omega
    simp only [symString, string, strSpec, Option.getD_some, if_true, fill, fillWhile, len, List.take_length, if_neg full]
  have before := @emit_before symSize (holding cs) s.toList (by rw [written_pos]; exact room)
  rw [emitted, ← before, holding, holding, emit_append]

theorem symNumber_written {cs : List Char} {num : BitVec 64} {spec : PrintfSpec} (precision : spec.precision < 2 ^ 15)
    (room : cs.length + (numberText num.toNat spec).length ≤ symSize) :
    symNumber (holding cs) num spec = holding (cs ++ numberText num.toNat spec) := by
  have before := @emit_before symSize (holding cs) (numberText num.toNat spec) (by rw [written_pos]; exact room)
  rw [symNumber, number_eq _ _ num.isLt precision, ← before, holding, holding, emit_append]

/-- The numbers of a resource have at most 20 characters. -/
theorem hex_fits (num : BitVec 64) {spec : PrintfSpec} (base : spec.base = 16) (sign : spec.flags.sign = false) (left : spec.flags.left = false)
    (width : -1 ≤ spec.fieldWidth ∧ spec.fieldWidth ≤ 18) (precision : spec.precision = -1) : (numberText num.toNat spec).length ≤ 18 := by
  have digits : (numberDigits spec.base (if spec.flags.small then 0x20 else 0) num.toNat).length ≤ 16 := by
    rw [base]
    exact numberDigits_hex num.isLt (by decide)
  have short : prefixLength num.toNat spec ≤ 2 := by
    rw [prefixLength]
    split <;> split <;> omega
  rw [numberText_length num.isLt sign left (by omega) (by omega), precision]
  omega

theorem dec_fits (num : BitVec 64) : (numberText num.toNat decSpec).length ≤ 20 := by
  have digits := @numberDigits_dec num.toNat 0 num.isLt
  have length := @numberText_length num.toNat decSpec num.isLt rfl rfl (by decide) (by decide)
  have none : prefixLength num.toNat decSpec = 0 := rfl
  rw [none] at length
  rw [length]
  exact max_le (by decide) ((Nat.zero_add _).trans_le (max_le digits (by decide)))

theorem kind_fits (res : Resource) : res.kind.1.toList.length = 4 ∧ res.kind.2.1.precision = -1 ∧
    ∀ num : BitVec 64, (numberText num.toNat res.kind.2.1).length ≤ 20 := by
  have hex {spec : PrintfSpec} (known : spec = ioSpec ∨ spec = memSpec ∨ spec = busSpec) (num : BitVec 64) :
      (numberText num.toNat spec).length ≤ 20 := by
    refine (hex_fits num ?_ ?_ ?_ ?_ ?_).trans (by decide) <;> rcases known with rfl | rfl | rfl <;> decide
  unfold Resource.kind
  split_ifs
  · exact ⟨rfl, rfl, hex (.inl rfl)⟩
  · exact ⟨rfl, rfl, hex (.inr (.inl rfl))⟩
  · exact ⟨rfl, rfl, dec_fits⟩
  · exact ⟨rfl, rfl, dec_fits⟩
  · exact ⟨rfl, rfl, hex (.inr (.inr rfl))⟩
  · exact ⟨rfl, rfl, hex (.inr (.inl rfl))⟩

theorem flags_fit (num : BitVec 64) : (numberText num.toNat flagSpec).length ≤ 18 := hex_fits num rfl rfl rfl (by decide) rfl

theorem bounds_fit (res : Resource) (fmt : List Char) : (res.bounds fmt).length ≤ 41 := by
  obtain ⟨-, -, number⟩ := kind_fits res
  have size := number (res.stop - res.start + 1)
  have start := number res.start
  have stop := number res.stop
  unfold Resource.bounds
  split
  · rw [List.length_append]
    have five : "size ".toList.length = 5 := rfl
    omega
  · rw [List.length_append]
    split
    · rw [List.length_cons]
      omega
    · rw [List.length_nil]
      omega

theorem trailer_fit (res : Resource) (fmt : List Char) : (res.trailer fmt).length ≤ 27 := by
  have flags := flags_fit res.flags
  unfold Resource.trailer
  split
  · have part (c : Bool) (s : String) : (if c then s.toList else []).length ≤ s.toList.length := by
      cases c with
      | false => exact Nat.zero_le _
      | true => exact le_rfl
    have wide := part (res.has 0x100000) " 64bit"
    have pref := part (res.has 0x2000) " pref"
    have window := part (res.has 0x200000) " window"
    have disabled := part (res.has 0x10000000) " disabled"
    have sizes : " 64bit".toList.length = 6 ∧ " pref".toList.length = 5 ∧ " window".toList.length = 7 ∧ " disabled".toList.length = 9 :=
      ⟨rfl, rfl, rfl, rfl⟩
    rw [List.length_append, List.length_append, List.length_append]
    omega
  · have seven : " flags ".toList.length = 7 := rfl
    rw [List.length_append]
    omega

theorem text_fits (res : Resource) (fmt : List Char) : (res.text fmt).length + 1 ≤ symSize := by
  obtain ⟨name, -, -⟩ := kind_fits res
  have bounds := bounds_fit res fmt
  have trailer := trailer_fit res fmt
  have size : symSize = 75 := rfl
  rw [Resource.text, List.length_cons, List.length_append, List.length_append, List.length_append, List.length_singleton]
  omega

theorem symFlags_written {res : Resource} {fmt : List Char} (decoded : res.decoded fmt = true) {cs : List Char} (room : cs.length + 27 ≤ symSize) :
    symFlags res (holding cs) = holding (cs ++ res.trailer fmt) := by
  have sizes : " 64bit".toList.length = 6 ∧ " pref".toList.length = 5 ∧ " window".toList.length = 7 ∧ " disabled".toList.length = 9 :=
    ⟨rfl, rfl, rfl, rfl⟩
  have part (c : Bool) {s : String} {cs : List Char} (short : s.toList.length ≤ 10) (room : cs.length + s.toList.length ≤ symSize) :
      (if c then symString (holding cs) s else holding cs) = holding (cs ++ if c then s.toList else []) := by
    cases c with
    | false => exact congrArg holding (List.append_nil cs).symm
    | true => exact symString_written short room
  have length (c : Bool) (s : String) : (if c then s.toList else []).length ≤ s.toList.length := by
    cases c with
    | false => exact Nat.zero_le _
    | true => exact le_rfl
  have wide := length (res.has 0x100000) " 64bit"
  have pref := length (res.has 0x2000) " pref"
  have window := length (res.has 0x200000) " window"
  unfold symFlags
  simp only
  rw [part _ (by decide) (by omega), part _ (by decide) (by rw [List.length_append]; omega),
    part _ (by decide) (by rw [List.length_append, List.length_append]; omega),
    part _ (by decide) (by rw [List.length_append, List.length_append, List.length_append]; omega), Resource.trailer, if_pos decoded]
  simp only [List.append_assoc]

theorem symBounds_written (res : Resource) (fmt : List Char) {cs : List Char} (room : cs.length + 41 ≤ symSize) :
    symBounds res fmt (holding cs) = some (holding (cs ++ res.bounds fmt)) := by
  obtain ⟨-, precision, number⟩ := kind_fits res
  have short : res.kind.2.1.precision < 2 ^ 15 := by
    rw [precision]
    decide
  have sized := number (res.stop - res.start + 1)
  have start := number res.start
  have stop := number res.stop
  have five : "size ".toList.length = 5 := rfl
  unfold symBounds Resource.bounds
  split
  · rw [symString_written (by decide) (by omega), symNumber_written short (by rw [List.length_append]; omega), List.append_assoc]
  · simp only
    rw [symNumber_written short (by omega)]
    split
    · rw [unchecked_written (by rw [List.length_append]; omega), Option.map_some,
        symNumber_written short (by rw [List.length_append, List.length_append, List.length_singleton]; omega), List.append_assoc, List.append_assoc]
      rfl
    · rw [List.append_nil]

/-- No store is outside the array, and nothing is cut. -/
theorem resourceSym_eq (res : Resource) (fmt : List Char) : resourceSym res fmt = some (holding (res.text fmt ++ [nul])) := by
  obtain ⟨name, -, -⟩ := kind_fits res
  have all := text_fits res fmt
  have size : symSize = 75 := rfl
  have opened : unchecked .empty '[' = some (holding ['[']) := rfl
  have named : symString (holding ['[']) res.kind.1 = holding ('[' :: res.kind.1.toList) := by
    refine symString_written (by omega) ?_
    rw [List.length_singleton]
    omega
  have front : ('[' :: res.kind.1.toList).length = 5 := by rw [List.length_cons, name]
  have bounded := symBounds_written res fmt (by omega : ('[' :: res.kind.1.toList).length + 41 ≤ symSize)
  have room : ('[' :: res.kind.1.toList ++ res.bounds fmt).length ≤ 46 := by
    have bounds := bounds_fit res fmt
    rw [List.length_append]
    omega
  have ended : (if res.decoded fmt then symFlags res (holding ('[' :: res.kind.1.toList ++ res.bounds fmt))
      else symNumber (symString (holding ('[' :: res.kind.1.toList ++ res.bounds fmt)) " flags ") res.flags flagSpec) =
      holding ('[' :: res.kind.1.toList ++ res.bounds fmt ++ res.trailer fmt) := by
    split
    · rename_i decoded
      exact symFlags_written decoded (by omega)
    · rename_i raw
      have flags := flags_fit res.flags
      have seven : " flags ".toList.length = 7 := rfl
      rw [symString_written (by decide) (by omega), symNumber_written (by decide) (by rw [List.length_append]; omega), Resource.trailer, if_neg raw,
        List.append_assoc]
  have whole : '[' :: res.kind.1.toList ++ res.bounds fmt ++ res.trailer fmt ++ [']'] = res.text fmt := by
    rw [Resource.text, List.cons_append, List.cons_append, List.cons_append]
  have closing : ('[' :: res.kind.1.toList ++ res.bounds fmt ++ res.trailer fmt).length < symSize := by
    rw [← whole, List.length_append, List.length_singleton] at all
    omega
  unfold resourceSym
  simp only [opened, named, Option.bind_eq_bind, Option.bind_some, bounded, ended]
  rw [unchecked_written closing, Option.bind_some, whole, unchecked_written (by omega)]

/-! ## No null inside the text -/

theorem digitOf_ne_nul {locase d : Nat} (lt : d < 16) (known : locase = 0 ∨ locase = 0x20) : digitOf locase d ≠ nul := by
  have upper : ∀ d, d < 16 → digitOf 0 d ≠ nul := by decide
  have lower : ∀ d, d < 16 → digitOf 0x20 d ≠ nul := by decide
  rcases known with rfl | rfl
  · exact upper d lt
  · exact lower d lt

theorem shiftDigits_noNul {locase : Nat} (known : locase = 0 ∨ locase = 0x20) (fuel num : Nat) : nul ∉ shiftDigits 16 4 locase fuel num := by
  induction fuel generalizing num with
  | zero => exact List.not_mem_nil
  | succ fuel ih =>
      rw [shiftDigits, List.mem_cons, not_or]
      constructor
      · have low : num % 256 &&& 16 - 1 < 16 := Nat.lt_succ_of_le Nat.and_le_right
        exact (digitOf_ne_nul low known).symm
      · split
        · exact ih _
        · exact List.not_mem_nil

theorem numberDigits_noNul {base locase : Nat} (known : locase = 0 ∨ locase = 0x20) (bases : base = 10 ∨ base = 16) (num : Nat) :
    nul ∉ numberDigits base locase num := by
  rw [numberDigits]
  split
  · rw [List.mem_singleton]
    exact (digitOf_ne_nul (by omega) known).symm
  · split
    · obtain rfl : base = 16 := by omega
      exact shiftDigits_noNul known _ _
    · rw [putDec_eq]
      intro member
      obtain ⟨d, inside, is⟩ := List.mem_map.mp member
      have all : ∀ d, d < 10 → digitChar d ≠ nul := by decide
      refine all d ?_ is
      rw [decimalDigits] at inside
      split at inside
      · rw [List.mem_singleton.mp inside]
        decide
      · exact Nat.digits_lt_base (by decide) inside

theorem padText_noNul (cond : Bool) {c : Char} (plain : c ≠ nul) (w : Int) : nul ∉ padText cond c w := by
  rw [padText]
  split
  · exact fun member => plain (List.eq_of_mem_replicate member).symm
  · exact List.not_mem_nil

theorem numberText_noNul {num : Nat} {spec : PrintfSpec} (unsigned : spec.flags.sign = false) (bases : spec.base = 10 ∨ spec.base = 16) :
    nul ∉ numberText num spec := by
  have cases (c : Bool) : (if c then 0x20 else 0) = 0 ∨ (if c then 0x20 else 0) = 0x20 := by cases c <;> simp
  have digits := numberDigits_noNul (cases spec.flags.small) bases num
  have sign : numberSign spec.flags num spec.fieldWidth = ([], num, spec.fieldWidth) := by
    rw [numberSign, unsigned]
    rfl
  have letter : Char.ofNat ('X'.toNat ||| if spec.flags.small then 0x20 else 0) ≠ nul := by
    cases spec.flags.small <;> decide
  have zero (c : Bool) : (if c then '0' else ' ') ≠ nul := by cases c <;> decide
  unfold numberText
  simp only [sign, List.mem_append, List.mem_reverse, not_or]
  refine ⟨⟨⟨⟨⟨⟨⟨padText_noNul _ (by decide) _, List.not_mem_nil⟩, ?_⟩, ?_⟩, padText_noNul _ (zero _) _⟩, ?_⟩, digits⟩, ?_⟩
  · split <;> simp [nul]
  · split
    · exact fun member => letter (List.mem_singleton.mp member).symm
    · exact List.not_mem_nil
  · exact fun member => absurd (List.eq_of_mem_replicate member) (by decide)
  · exact fun member => absurd (List.eq_of_mem_replicate member) (by decide)

theorem kind_noNul (res : Resource) : nul ∉ res.kind.1.toList ∧ ∀ num : BitVec 64, nul ∉ numberText num.toNat res.kind.2.1 := by
  unfold Resource.kind
  split_ifs
  · exact ⟨by decide, fun _ => numberText_noNul rfl (.inr rfl)⟩
  · exact ⟨by decide, fun _ => numberText_noNul rfl (.inr rfl)⟩
  · exact ⟨by decide, fun _ => numberText_noNul rfl (.inl rfl)⟩
  · exact ⟨by decide, fun _ => numberText_noNul rfl (.inl rfl)⟩
  · exact ⟨by decide, fun _ => numberText_noNul rfl (.inr rfl)⟩
  · exact ⟨by decide, fun _ => numberText_noNul rfl (.inr rfl)⟩

theorem bounds_noNul (res : Resource) (fmt : List Char) : nul ∉ res.bounds fmt := by
  obtain ⟨-, number⟩ := kind_noNul res
  unfold Resource.bounds
  split
  · rw [List.mem_append, not_or]
    exact ⟨by decide, number _⟩
  · rw [List.mem_append, not_or]
    refine ⟨number _, ?_⟩
    split
    · rw [List.mem_cons, not_or]
      exact ⟨by decide, number _⟩
    · exact List.not_mem_nil

theorem trailer_noNul (res : Resource) (fmt : List Char) : nul ∉ res.trailer fmt := by
  have part (c : Bool) {s : String} (plain : nul ∉ s.toList) : nul ∉ if c then s.toList else [] := by
    cases c with
    | false => exact List.not_mem_nil
    | true => exact plain
  unfold Resource.trailer
  split
  · simp only [List.mem_append, not_or]
    exact ⟨part _ (by decide), part _ (by decide), part _ (by decide), part _ (by decide)⟩
  · rw [List.mem_append, not_or]
    exact ⟨by decide, numberText_noNul rfl (.inr rfl)⟩

theorem text_noNul (res : Resource) (fmt : List Char) : nul ∉ res.text fmt := by
  rw [Resource.text, List.mem_cons, List.mem_append, List.mem_append, List.mem_append]
  rintro (first | ((name | bounds) | trailer) | last)
  · exact absurd first (by decide)
  · exact (kind_noNul res).1 name
  · exact bounds_noNul res fmt bounds
  · exact trailer_noNul res fmt trailer
  · exact absurd (List.mem_singleton.mp last) (by decide)

/-- A text and its null are read as the text. -/
theorem written_localText {cs : List Char} (plain : nul ∉ cs) : (holding (cs ++ [nul])).localText = cs := by
  have contents : (List.range ((holding (cs ++ [nul])).pos + 1)).map (holding (cs ++ [nul])).mem = cs ++ [nul, nul] := by
    rw [written_pos]
    refine List.ext_getElem (by simp) ?_
    intro i inside inside'
    rw [List.getElem_map, List.getElem_range, holding, emit_mem]
    have start : Out.empty.pos = 0 := rfl
    rw [start, if_pos ⟨rfl, Nat.zero_le i⟩, Nat.sub_zero]
    rcases Nat.lt_or_ge i (cs.length + 1) with near | last
    · have here : i < (cs ++ [nul]).length := by
        rw [List.length_append]
        exact near
      have split : cs ++ [nul, nul] = (cs ++ [nul]) ++ [nul] := by rw [List.append_assoc]; rfl
      simp only [split]
      rw [List.getElem_append_left here, List.getElem?_eq_getElem here]
      rfl
    · have outside : (cs ++ [nul]).length ≤ i := by
        rw [List.length_append]
        exact last
      have split : cs ++ [nul, nul] = (cs ++ [nul]) ++ [nul] := by rw [List.append_assoc]; rfl
      simp only [split]
      rw [List.getElem_append_right outside, List.getElem_singleton, List.getElem?_eq_none outside]
      rfl
  rw [Out.localText, contents, List.takeWhile_append_of_pos]
  · simp
  · intro c member
    have : c ≠ nul := fun is => plain (is ▸ member)
    simpa using this

/-! ## The printed text -/

theorem unchecked_some {o o' : Out} {c : Char} (ran : unchecked o c = some o') : o' = put none o c := by
  rw [unchecked] at ran
  split at ran
  · exact (Option.some.inj ran).symm
  · cases ran

theorem symBounds_some {res : Resource} {fmt : List Char} {o o' : Out} (ran : symBounds res fmt o = some o') :
    o' = if res.sized fmt then number (some symSize) (string (some symSize) o (some "size ".toList) strSpec) (res.stop - res.start + 1).toNat res.kind.2.1
      else
        if res.start ≠ res.stop then
          number (some symSize) (put none (number (some symSize) o res.start.toNat res.kind.2.1) '-') res.stop.toNat res.kind.2.1
        else number (some symSize) o res.start.toNat res.kind.2.1 := by
  rw [symBounds] at ran
  split at ran
  · rename_i sized
    rw [if_pos sized]
    exact (Option.some.inj ran).symm
  · rename_i sized
    rw [if_neg sized]
    simp only at ran
    split at ran
    · rename_i two
      rw [if_pos two]
      obtain ⟨dash, dashed, rfl⟩ := Option.map_eq_some_iff.1 ran
      rw [unchecked_some dashed]
      rfl
    · rename_i one
      rw [if_neg one]
      exact (Option.some.inj ran).symm

theorem resourceText_of {res : Resource} {fmt : List Char} {out : Out} (ran : resourceSym res fmt = some out) :
    resourceText res fmt = out.localText := by
  have opened : unchecked .empty '[' = some (put none .empty '[') := rfl
  unfold resourceSym at ran
  simp only [opened, Option.bind_eq_bind, Option.bind_some, Option.bind_eq_some_iff] at ran
  obtain ⟨p, bounded, q, closed, ended⟩ := ran
  rw [unchecked_some ended, unchecked_some closed, symBounds_some bounded]
  unfold resourceText
  have sized : (res.sized fmt = true) = ((charAt fmt 0 = 'R' ∧ res.kind.2.2 = true) ∧ res.has 0x20000000 = true) := by
    simp [Resource.sized, Resource.decoded]
  have decoded : (res.decoded fmt = true) = (charAt fmt 0 = 'R' ∧ res.kind.2.2 = true) := by
    simp [Resource.decoded]
  simp only [sized, decoded, symFlags]
  rfl

/-- A string is written between spaces, up to the precision. -/
theorem string_spaced (cs : List Char) (spec : PrintfSpec) : ∃ l r, ∀ b o, string b o (some cs) spec =
    emit b o (List.replicate l ' ' ++ cs.take (spec.precision % 2 ^ 64).toNat ++ List.replicate r ' ') := by
  have spaces (len fuel : Nat) (w : Int) : ∃ k w', ∀ b o, fillWhile b len fuel o w = (emit b o (List.replicate k ' '), w') := by
    induction fuel generalizing w with
    | zero => exact ⟨0, w, fun _ _ => rfl⟩
    | succ fuel ih =>
        by_cases more : len < w
        · obtain ⟨k, w', eq⟩ := ih (s16 (w - 1))
          exact ⟨k + 1, w', fun b o => (if_pos more).trans (eq b _)⟩
        · exact ⟨0, s16 (w - 1), fun _ _ => if_neg more⟩
  have cut : cs.take (min cs.length (spec.precision % 2 ^ 64).toNat) = cs.take (spec.precision % 2 ^ 64).toNat := by
    rw [← List.take_take, List.take_of_length_le (List.length_take_le' _ _)]
  unfold string fill
  simp only [Option.getD_some, cut]
  cases spec.flags.left with
  | true =>
      obtain ⟨r, _, eq⟩ := spaces (min cs.length (spec.precision % 2 ^ 64).toNat) (2 ^ 15 + 1) spec.fieldWidth
      refine ⟨0, r, fun b o => ?_⟩
      simp only [if_true, eq, List.replicate_zero, List.nil_append, emit_append]
  | false =>
      obtain ⟨l, w, eq⟩ := spaces (min cs.length (spec.precision % 2 ^ 64).toNat) (2 ^ 15 + 1) spec.fieldWidth
      obtain ⟨r, _, eq'⟩ := spaces (min cs.length (spec.precision % 2 ^ 64).toNat) (2 ^ 15 + 1) w
      refine ⟨l, r, fun b o => ?_⟩
      simp only [Bool.false_eq_true, if_false, eq, eq', emit_append]

theorem resourceText_eq (res : Resource) (fmt : List Char) : resourceText res fmt = res.text fmt :=
  (resourceText_of (resourceSym_eq res fmt)).trans (written_localText (text_noNul res fmt))

/-- Every store is inside the array, which holds the whole text and a null, and `string` prints the text between spaces
    up to the precision of the format.  The text has both bounds, or only one if they are equal, unless it has the size. -/
theorem resource_shown (res : Resource) (fmt : List Char) :
    resourceSym res fmt = some (holding (res.text fmt ++ [nul])) ∧ (res.text fmt ++ [nul]).length ≤ symSize ∧
    resourceText res fmt = res.text fmt ∧
    (∀ spec, ∃ l r, ∀ b o, string b o (some (resourceText res fmt)) spec =
      emit b o (List.replicate l ' ' ++ (res.text fmt).take (spec.precision % 2 ^ 64).toNat ++ List.replicate r ' ')) ∧
    res.text fmt = '[' :: res.kind.1.toList ++
      (if res.sized fmt then "size ".toList ++ numberText (res.stop - res.start + 1).toNat res.kind.2.1
      else if res.start = res.stop then numberText res.start.toNat res.kind.2.1
      else numberText res.start.toNat res.kind.2.1 ++ ['-'] ++ numberText res.stop.toNat res.kind.2.1) ++
      res.trailer fmt ++ [']'] := by
  refine ⟨resourceSym_eq res fmt, ?_, resourceText_eq res fmt, ?_, ?_⟩
  · rw [List.length_append]
    exact text_fits res fmt
  · intro spec
    rw [resourceText_eq]
    exact string_spaced _ spec
  · have bounds : res.bounds fmt = if res.sized fmt then "size ".toList ++ numberText (res.stop - res.start + 1).toNat res.kind.2.1
        else if res.start = res.stop then numberText res.start.toNat res.kind.2.1
        else numberText res.start.toNat res.kind.2.1 ++ ['-'] ++ numberText res.stop.toNat res.kind.2.1 := by
      unfold Resource.bounds
      by_cases sized : res.sized fmt = true
      · rw [if_pos sized, if_pos sized]
      · rw [if_neg sized, if_neg sized]
        by_cases same : res.start = res.stop
        · rw [if_neg (not_not.mpr same), if_pos same, List.append_nil]
        · rw [if_pos same, if_neg same, List.append_assoc]
          rfl
    rw [← bounds, Resource.text, List.cons_append, List.cons_append, List.cons_append]

/-- Memory that has no address yet. -/
def unsetMem : Resource := ⟨0x10, 0x1f, 0x20000200⟩

/-- `%pR` does not print the end of a resource that has no address yet. -/
theorem unset_end_missing : ¬ ∀ (res : Resource) (fmt : List Char), numberText res.stop.toNat res.kind.2.1 <:+: resourceText res fmt := by
  intro shown
  have here := shown unsetMem ['R']
  rw [resourceText_eq] at here
  exact absurd here (by decide +kernel)

end Miracle.Vsprintf
