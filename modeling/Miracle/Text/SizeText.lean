import Miracle.Text.GetSize

/-! # The text of a size

The number that `string_get_size` prints, and what it says about the product.  Rounding adds half a
unit to the last digit, and the number of digits has been chosen before.
-/

namespace Miracle.Text

open Strtox Vsprintf Scale Numeral

/-! ## Strings in memory -/

/-- A text and its null, at the start of the memory. -/
structure StringAt (mem : Nat → Char) (text : List Char) : Prop where
  chars : ∀ i < text.length, text[i]? = some (mem i)
  null : mem text.length = nul

/-- The string at the start of the memory. -/
def stringIn (mem : Nat → Char) (len : Nat) : List Char := ((List.range len).map mem).takeWhile (· ≠ nul)

theorem StringAt.prefix_range {mem : Nat → Char} {text : List Char} (holds : StringAt mem text) {len : Nat} (room : text.length < len) :
    ∃ rest, (List.range len).map mem = text ++ nul :: rest := by
  obtain ⟨more, rfl⟩ : ∃ more, len = text.length + 1 + more := ⟨len - text.length - 1, by omega⟩
  have first : (List.range text.length).map mem = text := by
    apply List.ext_getElem?
    intro i
    by_cases inside : i < text.length
    · rw [List.getElem?_map, List.getElem?_range inside, holds.chars i inside]
      rfl
    · have beyond := Nat.le_of_not_lt inside
      rw [List.getElem?_eq_none beyond, List.getElem?_eq_none (by rwa [List.length_map, List.length_range])]
  refine ⟨(List.range more).map fun i => mem (text.length + 1 + i), ?_⟩
  rw [List.range_add, List.range_succ, List.map_append, List.map_append, first, List.map_map, List.append_assoc]
  simp only [List.map_cons, List.map_nil, holds.null, List.singleton_append]
  rfl

theorem StringAt.stringIn {mem : Nat → Char} {text : List Char} (holds : StringAt mem text) (noNul : nul ∉ text) {len : Nat}
    (room : text.length < len) : stringIn mem len = text := by
  obtain ⟨rest, eq⟩ := holds.prefix_range room
  rw [Text.stringIn, eq, List.takeWhile_append_of_pos]
  · simp
  · intro c mem
    exact decide_eq_true fun null => noNul (null ▸ mem)

/-- A character of one byte that is not the null. -/
def Plain (c : Char) : Prop := c ≠ nul ∧ c.toNat < 256

theorem bytesOf_text {s : List Char} (plain : ∀ c ∈ s, Plain c) (rest : List Char) :
    ((bytesOf (s ++ nul :: rest)).takeWhile (· ≠ 0)).map Byte.char = s ∧ ((bytesOf s).takeWhile (· ≠ 0)).map Byte.char = s := by
  induction s with
  | nil => exact ⟨rfl, rfl⟩
  | cons c s ih =>
      obtain ⟨some, byte⟩ := plain c List.mem_cons_self
      have value : (Fin.ofNat 256 c.toNat : Byte).val = c.toNat := Nat.mod_eq_of_lt byte
      have back : Byte.char (Fin.ofNat 256 c.toNat) = c := by
        change Char.ofNat (Fin.ofNat 256 c.toNat : Byte).val = c
        rw [value, Char.ofNat_toNat]
      have nonzero : (Fin.ofNat 256 c.toNat : Byte) ≠ 0 := by
        intro zero
        rw [zero] at back
        exact some back.symm
      obtain ⟨first, second⟩ := ih fun c mem => plain c (List.mem_cons_of_mem _ mem)
      rw [bytesOf] at first second
      constructor
      · rw [List.cons_append, bytesOf, List.map_cons, List.takeWhile_cons, if_pos (decide_eq_true nonzero), List.map_cons, back, first]
      · rw [bytesOf, List.map_cons, List.takeWhile_cons, if_pos (decide_eq_true nonzero), List.map_cons, back, second]

theorem literal_bytesOf {s : List Char} (plain : ∀ c ∈ s, Plain c) : (literal (bytesOf s) : Pointer Empty).text = some (some s) := by
  rw [literal_text, (bytesOf_text plain []).2]

theorem literal_memory {mem : Nat → Char} {s : List Char} (holds : StringAt mem s) (plain : ∀ c ∈ s, Plain c) (room : s.length < 8) :
    (literal (bytesOf ((List.range 8).map mem)) : Pointer Empty).text = some (some s) := by
  obtain ⟨rest, eq⟩ := holds.prefix_range room
  rw [literal_text, eq, (bytesOf_text plain rest).1]

/-! ## What is printed -/

/-- A buffer with room for the text holds it afterwards. -/
theorem printf_text {n : Nat} {buf : Nat → Char} {fmt : CString} {args : List (VArg 0)} {text : List Char} (pos : 0 < n) (int : n < 2 ^ 31)
    (prints : ∀ (b : Bound) (o : Out), printLoop vaArgs (callees 0) b ⟨fmt.chars, .zero, args, o⟩ = some (emit b o text)) :
    ∃ o, printf vaArgs (callees 0) (some n) ⟨0, buf⟩ fmt args = some o ∧ (text.length < n → StringAt o.mem text) ∧ ∀ i, n ≤ i → o.mem i = buf i := by
  have positive : ¬ ∃ e ∈ some n, 2 ^ 31 ≤ (e - 0) % 2 ^ 32 := by
    rintro ⟨e, is, negative⟩
    cases is
    omega
  obtain ⟨-, fits, full⟩ := @emit_terminated buf n [] text ⟨0, buf⟩ (.start pos)
  rw [List.length_nil, Nat.zero_add, List.nil_append] at fits full
  refine ⟨terminate (some n) 0 (emit (some n) ⟨0, buf⟩ text), by rw [printf, if_neg positive, prints]; rfl, fun room => ⟨(fits room).text, ?_⟩, ?_⟩
  · have ends : (emit (some n) ⟨0, buf⟩ text).pos = text.length := by rw [emit_pos, Nat.zero_add]
    rw [terminate, if_pos (by omega : 0 < n - 0), ends, if_pos room]
    exact Function.update_self ..
  · by_cases room : text.length < n
    · exact (fits room).outside
    · exact (full (Nat.le_of_not_lt room)).outside

def digitsText (n : Nat) : List Char := ((decimalDigits n).map digitChar).reverse

def numberSpec (flags : Flags) (width : Int) : PrintfSpec := ⟨.uint, flags, 10, noQualifier, width, -1⟩

/-- A number, with zeros in front where the flag asks for them. -/
theorem numberText_digits {n : Nat} (small : n < 2 ^ 32) (zeropad : Bool) {width : Int} (low : -1 ≤ width) (high : width ≤ 3)
    (plain : zeropad = false → width = -1) : numberText n (numberSpec { Flags.zero with zeropad := zeropad } width) =
      List.replicate (width - (decimalDigits n).length).toNat '0' ++ digitsText n := by
  have length := decimalDigits_length (by omega : n < 2 ^ 64)
  have full : fullPrecision (numberSpec { Flags.zero with zeropad := zeropad } width) (decimalDigits n).length = (decimalDigits n).length :=
    if_pos (by
      change (-1 : Int) < _
      omega)
  have text := @numberText_decimal n n (numberSpec { Flags.zero with zeropad := zeropad } width) [] rfl (by
    rw [List.length_nil, Int.natCast_zero, Int.sub_zero]
    rfl)
  obtain ⟨w, rest⟩ : ∃ w : Int, w = width - (decimalDigits n).length := ⟨_, rfl⟩
  have wide : s16 (width - ([] : List Char).length - (decimalDigits n).length) = w := by
    rw [List.length_nil, Int.natCast_zero, Int.sub_zero, ← rest]
    exact s16_of (by omega) (by omega)
  have count : padCount w = w.toNat := padCount_of (by omega) (by omega)
  have none : padCount (padRest w) = 0 := padCount_padRest (by omega) (by omega)
  have none' : padCount (padRest (padRest w)) = 0 := by
    have after := @padRest_of w (by omega) (by omega)
    exact padCount_padRest (by omega) (by omega)
  simp only [full] at text
  simp only [numberSpec, wide] at text
  rw [numberSpec, text, ← rest]
  cases zeropad with
  | true =>
      simp [Flags.zero, padText, count, none, digitsText]
  | false =>
      have empty : w.toNat = 0 := by
        have negative := plain rfl
        omega
      simp [Flags.zero, padText, count, none, none', digitsText, empty]

/-- A point and `j` digits behind it, when there are any. -/
def fraction (j f : Nat) : List Char := if j = 0 then [] else '.' :: ((lowDigits 10 j f).map digitChar).reverse

theorem zeros_digits {r : Nat} (small : r < 1000) :
    List.replicate ((3 : Int) - (decimalDigits r).length).toNat '0' ++ digitsText r = ((lowDigits 10 3 r).map digitChar).reverse := by
  rw [digitsText]
  by_cases one : r < 10
  · have tens : r / 10 = 0 := by omega
    rw [decimalDigits_one one, lowDigits, lowDigits, lowDigits, lowDigits, tens]
    rfl
  · by_cases two : r < 100
    · have hundreds : r / 10 / 10 = 0 := by omega
      rw [decimalDigits_step (by omega), decimalDigits_one (by omega), lowDigits, lowDigits, lowDigits, lowDigits, hundreds]
      rfl
    · rw [decimalDigits_step (by omega), decimalDigits_step (by omega), decimalDigits_one (by omega), lowDigits, lowDigits, lowDigits, lowDigits]
      rfl

theorem digits_cut (r : Nat) {j : Nat} (some : j ≠ 0) (few : j ≤ 2) :
    ('.' :: ((lowDigits 10 3 r).map digitChar).reverse).take (j + 1) = fraction j (r / 10 ^ (3 - j)) := by
  have cases_ : j = 1 ∨ j = 2 := by omega
  rcases cases_ with rfl | rfl
  · have hundreds : r / 10 / 10 = r / 100 := Nat.div_div_eq_div_mul r 10 10
    rw [lowDigits, lowDigits, lowDigits, lowDigits, hundreds]
    rfl
  · rfl

theorem printLoop_literal {b : Bound} {o : Out} {fmt rest : List Char} {spec spec' : PrintfSpec} {args : List (VArg 0)} (more : charAt fmt 0 ≠ nul)
    (decoded : formatDecode fmt spec = (rest, spec')) (type : spec'.type = .none) : printLoop vaArgs (callees 0) b ⟨fmt, spec, args, o⟩ =
      printLoop vaArgs (callees 0) b ⟨rest, spec', args, emit b o (fmt.take (fmt.length - rest.length))⟩ := by
  have step : printStep vaArgs (callees 0) b ⟨fmt, spec, args, o⟩ =
      some ⟨rest, spec', args, emit b o (fmt.take (fmt.length - rest.length))⟩ := by
    unfold printStep
    simp only [decoded, type]
  rw [printLoop_step more, step, Option.bind_some]

theorem printLoop_string {b : Bound} {o : Out} {fmt rest : List Char} {spec : PrintfSpec} {p : Pointer Empty} {args : List (VArg 0)} {s : List Char}
    (more : charAt fmt 0 ≠ nul) (decoded : formatDecode fmt spec = (rest, textSpec)) (text : p.text = some (some s)) (short : s.length < 2 ^ 31) :
    printLoop vaArgs (callees 0) b ⟨fmt, spec, .ptr p :: args, o⟩ = printLoop vaArgs (callees 0) b ⟨rest, textSpec, args, emit b o s⟩ := by
  have taken : vaArgs.str (.ptr p :: args : List (VArg 0)) = some (some s, args) := by
    change (do some (← (p : Pointer Empty).text, args)) = _
    rw [text]
    rfl
  have step : printStep vaArgs (callees 0) b ⟨fmt, spec, .ptr p :: args, o⟩ = some ⟨rest, textSpec, args, emit b o s⟩ := by
    unfold printStep
    simp only [decoded]
    change (do
      let (s, args) ← vaArgs.str (.ptr p :: args : List (VArg 0))
      some (⟨rest, textSpec, args, string b o s textSpec⟩ : PrintState (List (VArg 0)))) = _
    rw [taken]
    exact congrArg some (congrArg (PrintState.mk rest textSpec args) (string_plain b o short))
  rw [printLoop_step more, step, Option.bind_some]

theorem printLoop_number {b : Bound} {o : Out} {fmt rest : List Char} {spec : PrintfSpec} {flags : Flags} {width : Int} {v : BitVec 32}
    {args : List (VArg 0)} (more : charAt fmt 0 ≠ nul) (decoded : formatDecode fmt spec = (rest, numberSpec flags width)) :
    printLoop vaArgs (callees 0) b ⟨fmt, spec, .int v :: args, o⟩ =
      printLoop vaArgs (callees 0) b ⟨rest, numberSpec flags width, args, emit b o (numberText v.toNat (numberSpec flags width))⟩ := by
  have word := v.isLt
  have taken : vaArgs.number .uint flags (.int v :: args : List (VArg 0)) = some (v.toNat, args) := by
    change some ((v.setWidth 64).toNat, args) = _
    rw [BitVec.toNat_setWidth, Nat.mod_eq_of_lt (by omega)]
  have step : printStep vaArgs (callees 0) b ⟨fmt, spec, .int v :: args, o⟩ =
      some ⟨rest, numberSpec flags width, args, emit b o (numberText v.toNat (numberSpec flags width))⟩ := by
    unfold printStep
    simp only [decoded]
    change (do
      let (num, args) ← vaArgs.number .uint flags (.int v :: args : List (VArg 0))
      some (⟨rest, numberSpec flags width, args, number b o num (numberSpec flags width)⟩ : PrintState (List (VArg 0)))) = _
    rw [taken]
    refine congrArg some (congrArg (PrintState.mk rest (numberSpec flags width) args) ?_)
    exact number_eq b o (by omega) (by decide : (-1 : Int) < 2 ^ 15)
  rw [printLoop_step more, step, Option.bind_some]

/-- A text that is cut by a null. -/
theorem StringAt.cut {mem : Nat → Char} {text : List Char} (holds : StringAt mem text) {k : Nat} (le : k ≤ text.length) :
    StringAt (Function.update mem k nul) (text.take k) := by
  have length : (text.take k).length = k := List.length_take_of_le le
  refine ⟨fun i inside => ?_, by rw [length]; exact Function.update_self ..⟩
  rw [length] at inside
  rw [List.getElem?_take_of_lt inside, Function.update_of_ne inside.ne]
  exact holds.chars i (by omega)

/-- `tmp` holds the point and the digits, and nothing is written behind it. -/
theorem printTmp_text {tmp : Nat → Char} {r j : Nat} (small : r < 1000) (few : j ≤ 2) (start : tmp 0 = nul) :
    ∃ tmp', printTmp tmp r j = some tmp' ∧ StringAt tmp' (fraction j (r / 10 ^ (3 - j))) ∧ ∀ k, 8 ≤ k → tmp' k = tmp k := by
  rw [printTmp]
  by_cases some_ : j = 0
  · rw [if_neg (not_not.mpr some_), some_]
    exact ⟨tmp, rfl, ⟨fun i inside => absurd inside (Nat.not_lt_zero i), start⟩, fun _ _ => rfl⟩
  · have number : (BitVec.ofNat 32 r).toNat = r := by
      rw [BitVec.toNat_ofNat]
      omega
    have prints (b : Bound) (o : Out) : printLoop vaArgs (callees 0) b ⟨".%03u".toList, .zero, [.int (BitVec.ofNat 32 r)], o⟩ =
        some (emit b o ('.' :: ((lowDigits 10 3 r).map digitChar).reverse)) := by
      have text := @numberText_digits r (by omega) true 3 (by decide) (by decide) (fun no => absurd no.symm Bool.false_ne_true)
      rw [zeros_digits small] at text
      rw [printLoop_literal (by decide) (by rfl : formatDecode ".%03u".toList .zero = ("%03u".toList, .zero)) rfl,
        printLoop_number (by decide) (by rfl : formatDecode "%03u".toList .zero = ([], numberSpec { Flags.zero with zeropad := true } 3)),
        number, text, printLoop_end rfl]
      rfl
    have room : ('.' :: ((lowDigits 10 3 r).map digitChar).reverse).length = 4 := rfl
    obtain ⟨o, run, holds, outside⟩ := @printf_text 8 tmp ⟨".%03u".toList, by decide⟩ _ _ (by decide) (by decide) prints
    rw [if_pos some_, run]
    refine ⟨Function.update o.mem (j + 1) nul, if_pos (by omega), ?_, fun k beyond => ?_⟩
    · rw [← digits_cut r some_ few]
      exact (holds (by rw [room]; decide)).cut (by rw [room]; omega)
    · rw [Function.update_of_ne (by omega)]
      exact outside k beyond

/-! ## The text of a size -/

def sizeText (units : Units) (n j f i : Nat) : List Char := digitsText n ++ fraction j f ++ ' ' :: (units.unit i).toList

theorem digitChar_plain {d : Nat} (digit : d < 10) : Plain (digitChar d) := by
  have all : ∀ d < 10, digitChar d ≠ nul ∧ (digitChar d).toNat < 256 := by decide
  exact all d digit

theorem digitsText_plain (n : Nat) : ∀ c ∈ digitsText n, Plain c := by
  intro c mem
  obtain ⟨d, digit, rfl⟩ := List.mem_map.mp (List.mem_reverse.mp mem)
  exact digitChar_plain (decimalDigits_lt n d digit)

theorem lowDigits_lt (k n : Nat) : ∀ d ∈ lowDigits 10 k n, d < 10 := by
  induction k generalizing n with
  | zero => exact fun d mem => absurd mem List.not_mem_nil
  | succ k ih =>
      intro d mem
      rcases List.mem_cons.mp mem with rfl | mem
      · exact Nat.mod_lt n (by decide)
      · exact ih (n / 10) d mem

theorem fraction_plain (j f : Nat) : ∀ c ∈ fraction j f, Plain c := by
  intro c mem
  rw [fraction] at mem
  split at mem
  · exact absurd mem List.not_mem_nil
  · rcases List.mem_cons.mp mem with rfl | mem
    · exact ⟨by decide, by decide⟩
    · obtain ⟨d, digit, rfl⟩ := List.mem_map.mp (List.mem_reverse.mp mem)
      exact digitChar_plain (lowDigits_lt j f d digit)

theorem unit_plain (units : Units) (i : Nat) : (units.unit i).toList.length ≤ 3 ∧ ∀ c ∈ (units.unit i).toList, Plain c := by
  have all : ("UNK" :: Units.ten.unitsStr ++ Units.two.unitsStr).all (fun name => name.toList.length ≤ 3 ∧
      name.toList.all fun c => c ≠ nul ∧ c.toNat < 256) = true := by decide +kernel
  suffices member : units.unit i ∈ "UNK" :: Units.ten.unitsStr ++ Units.two.unitsStr by
    obtain ⟨short, plain⟩ := of_decide_eq_true (List.all_eq_true.mp all _ member)
    refine ⟨short, fun c mem => ?_⟩
    have fine : c ≠ nul ∧ c.toNat < 256 := of_decide_eq_true (List.all_eq_true.mp plain c mem)
    exact fine
  rw [Units.unit]
  split
  · exact List.mem_cons_self
  · rename_i less
    have known : i < units.unitsStr.length := by
      cases units with
      | ten => exact Nat.lt_of_not_le less
      | two => exact Nat.lt_of_not_le less
    have member : units.unitsStr.getD i "" ∈ units.unitsStr := by
      rw [List.getD_eq_getElem _ _ known]
      exact List.getElem_mem known
    cases units with
    | ten => exact List.mem_append_left _ (List.mem_cons_of_mem _ member)
    | two => exact List.mem_append_right _ member

theorem sizeText_plain (units : Units) (n j f i : Nat) : ∀ c ∈ sizeText units n j f i, Plain c := by
  intro c mem
  rcases List.mem_append.mp mem with number | unit
  · rcases List.mem_append.mp number with whole | part
    · exact digitsText_plain n c whole
    · exact fraction_plain j f c part
  · rcases List.mem_cons.mp unit with rfl | unit
    · exact ⟨by decide, by decide⟩
    · exact (unit_plain units i).2 c unit

theorem fraction_length (j f : Nat) : (fraction j f).length = if j = 0 then 0 else j + 1 := by
  have count (k n : Nat) : (lowDigits 10 k n).length = k := by
    induction k generalizing n with
    | zero => rfl
    | succ k ih => rw [lowDigits, List.length_cons, ih]
  rw [fraction]
  split
  · rfl
  · rw [List.length_cons, List.length_reverse, List.length_map, count]

/-- The label `out` prints the size, the contents of `tmp` and the unit. -/
theorem printSize_text {units : Units} {n j f i len : Nat} {tmp buf : Nat → Char} (small : n < 2 ^ 32) (few : j ≤ 2) (holds : StringAt tmp (fraction j f))
    (pos : 0 < len) (int : len < 2 ^ 31) : ∃ out, printSize units n i tmp buf len = some out ∧
      ((sizeText units n j f i).length < len → StringAt out.buf (sizeText units n j f i)) ∧ (∀ k, len ≤ k → out.buf k = buf k) ∧ out.tmp = tmp := by
  have number : (BitVec.ofNat 32 n).toNat = n := by rw [BitVec.toNat_ofNat, Nat.mod_eq_of_lt small]
  have short : (fraction j f).length < 8 := by
    rw [fraction_length]
    split <;> omega
  have prints (b : Bound) (o : Out) : printLoop vaArgs (callees 0) b ⟨"%u%s %s".toList, .zero, [.int (BitVec.ofNat 32 n),
      .ptr (literal (bytesOf ((List.range 8).map tmp))), .ptr (literal (bytesOf (units.unit i).toList))], o⟩ =
        some (emit b o (sizeText units n j f i)) := by
    have text : numberText n (numberSpec Flags.zero (-1)) = digitsText n := by
      have none : ((-1 : Int) - (decimalDigits n).length).toNat = 0 := by omega
      have padded := @numberText_digits n small false (-1) (by decide) (by decide) (fun _ => rfl)
      rwa [none, List.replicate_zero, List.nil_append] at padded
    have unit := unit_plain units i
    refine (printLoop_number (by decide) (by rfl : formatDecode "%u%s %s".toList .zero = ("%s %s".toList, numberSpec Flags.zero (-1)))).trans ?_
    rw [number, text]
    refine (printLoop_string (by decide) (by rfl : formatDecode "%s %s".toList (numberSpec Flags.zero (-1)) = (" %s".toList, textSpec))
      (literal_memory holds (fraction_plain j f) short) (by omega)).trans ?_
    refine (printLoop_literal (by decide)
      (by rfl : formatDecode " %s".toList textSpec = ("%s".toList, { textSpec with type := .none })) rfl).trans ?_
    refine (printLoop_string (by decide) (by rfl : formatDecode "%s".toList { textSpec with type := .none } = ([], textSpec))
      (literal_bytesOf unit.2) (by omega)).trans ?_
    rw [printLoop_end rfl, sizeText, emit_append, emit_append]
    rfl
  obtain ⟨o, run, text, outside⟩ := @printf_text len buf ⟨"%u%s %s".toList, by decide⟩ _ _ pos int prints
  refine ⟨⟨o.mem, tmp⟩, ?_, text, outside, rfl⟩
  rw [printSize, run]
  rfl

/-- The number and the count of its digits behind the point can be read off the text. -/
theorem sizeText_inj {units units' : Units} {n n' j j' f f' i i' : Nat} (same : sizeText units n j f i = sizeText units' n' j' f' i') : n = n' ∧ j = j' := by
  have digits (n : Nat) : ∀ c ∈ digitsText n, c ≠ '.' ∧ c ≠ ' ' := by
    have all : ∀ d < 10, digitChar d ≠ '.' ∧ digitChar d ≠ ' ' := by decide
    intro c mem
    obtain ⟨d, digit, rfl⟩ := List.mem_map.mp (List.mem_reverse.mp mem)
    exact all d (decimalDigits_lt n d digit)
  have whole (units : Units) (n j f i : Nat) : (sizeText units n j f i).takeWhile (fun c => c ≠ '.' ∧ c ≠ ' ') = digitsText n := by
    rw [sizeText, List.append_assoc, List.takeWhile_append_of_pos fun c mem => decide_eq_true (digits n c mem)]
    rw [fraction]
    split
    · exact List.append_nil _
    · exact List.append_nil _
  have number : n = n' := by
    have read (n : Nat) : (digitsText n).map digit = (decimalDigits n).reverse.map some := by
      rw [digitsText, List.map_reverse, List.map_reverse, List.map_map]
      exact congrArg List.reverse (List.map_congr_left fun d mem => digit_digitChar (decimalDigits_lt n d mem))
    have texts : digitsText n = digitsText n' := by rw [← whole units n j f i, same, whole]
    have lists := congrArg (List.map digit) texts
    rw [read, read] at lists
    have values := congrArg (value 10) ((List.map_injective_iff.mpr (Option.some_injective _)) lists)
    rwa [value_decimalDigits, value_decimalDigits] at values
  subst number
  refine ⟨rfl, ?_⟩
  have part (units : Units) (j f i : Nat) : ((fraction j f ++ ' ' :: (units.unit i).toList).takeWhile (· ≠ ' ')).length = if j = 0 then 0 else j + 1 := by
    have gap : ∀ c ∈ fraction j f, c ≠ ' ' := by
      have all : ∀ d < 10, digitChar d ≠ ' ' := by decide
      intro c mem
      rw [fraction] at mem
      split at mem
      · exact absurd mem List.not_mem_nil
      · rcases List.mem_cons.mp mem with rfl | mem
        · decide
        · obtain ⟨d, digit, rfl⟩ := List.mem_map.mp (List.mem_reverse.mp mem)
          exact all d (lowDigits_lt j f d digit)
    rw [List.takeWhile_append_of_pos fun c mem => decide_eq_true (gap c mem), List.length_append, fraction_length]
    exact Nat.add_zero _
  rw [sizeText, sizeText, List.append_assoc, List.append_assoc] at same
  have lengths := congrArg (fun s => (s.takeWhile (· ≠ ' ')).length) (List.append_cancel_left same)
  simp only [part] at lengths
  split at lengths <;> split at lengths <;> omega

end Miracle.Text
