import Miracle.Text.Hexdump
import Miracle.Vsprintf.Resource

/-! # The lines of a dump

A line is its hexadecimal columns, and behind them a column of characters.  A call writes the line
or cuts it at the end of the buffer.  Two things go wrong: an empty line for an empty buffer, whose
length is not the one that is returned, and a buffer that is left with a size that is negative as an
`int`, for which `snprintf` writes nothing.
-/

namespace Miracle.Text

open Strtox Vsprintf Numeral

/-! ## The line -/

/-- A group, after a space unless it is the first one. -/
def groupText (buf : Nat → Byte) (groupsize j : Nat) : List Char :=
  (if j = 0 then [] else [' ']) ++ (group buf groupsize j).reverse.flatMap hexBytePack

def hexColumns (buf : Nat → Byte) (groupsize n : Nat) : List Char := (List.range n).flatMap (groupText buf groupsize)

/-- The line that a call dumps without an end of the buffer. -/
def Layout.line (l : Layout) (buf : Nat → Byte) (ascii : Bool) : List Char :=
  if l.len = 0 then []
  else
    let hex := hexColumns buf l.groupsize l.ngroups
    if ascii then hex ++ List.replicate (l.asciiColumn - hex.length) ' ' ++ (bytes buf l.len).map asciiChar else hex

/-- The buffer holds the start of a line and a null, and nothing beyond it is written. -/
structure Shown (linebuf : Nat → Char) (n : Nat) (row : List Char) (mem : Nat → Char) : Prop where
  text : ∀ i, i < row.length → i + 1 < n → row[i]? = some (mem i)
  nul : 0 < n → mem (min row.length (n - 1)) = nul
  outside : ∀ i, n ≤ i → mem i = linebuf i

/-- The length of the line is returned, and the buffer shows it. -/
def Dumped (linebuf : Nat → Char) (n : Nat) (line : List Char) (result : Option (Int × (Nat → Char))) : Prop :=
  ∃ mem, result = some ((line.length : Int), mem) ∧ Shown linebuf n line mem

theorem hexColumns_succ (buf : Nat → Byte) (g n : Nat) : hexColumns buf g (n + 1) = hexColumns buf g n ++ groupText buf g n := by
  rw [hexColumns, List.range_succ, List.flatMap_append, List.flatMap_singleton]
  rfl

theorem pack_length (bs : List Byte) : (bs.flatMap hexBytePack).length = 2 * bs.length := by
  induction bs with
  | nil => rfl
  | cons x bs ih =>
      rw [List.flatMap_cons, List.length_append, ih, List.length_cons]
      change 2 + 2 * bs.length = _
      omega

theorem groupText_length (buf : Nat → Byte) (g j : Nat) : (groupText buf g j).length = 2 * g + if j = 0 then 0 else 1 := by
  have digits : ((group buf g j).reverse.flatMap hexBytePack).length = 2 * g := by
    rw [pack_length, List.length_reverse, group, List.length_map, List.length_range]
  rw [groupText, List.length_append, digits]
  split
  · exact Nat.zero_add _
  · exact Nat.add_comm _ _

theorem hexColumns_length (buf : Nat → Byte) (g n : Nat) : (hexColumns buf g n).length = (2 * g + 1) * n - 1 := by
  induction n with
  | zero => rfl
  | succ n ih =>
      rw [hexColumns_succ, List.length_append, ih, groupText_length, Nat.mul_succ]
      cases n with
      | zero =>
          rw [if_pos rfl]
          omega
      | succ n =>
          have some : 0 < (2 * g + 1) * (n + 1) := Nat.mul_pos (Nat.succ_pos _) (Nat.succ_pos _)
          rw [if_neg (Nat.succ_ne_zero n)]
          omega

/-! ## Characters at the cursor -/

/-- The cursor is behind a text that leaves room for a null. -/
structure Written (linebuf : Nat → Char) (n : Nat) (text : List Char) (o : Out) : Prop where
  pos : o.pos = text.length
  room : text.length < n
  text : ∀ i, i < text.length → text[i]? = some (o.mem i)
  outside : ∀ i, n ≤ i → o.mem i = linebuf i

variable {linebuf : Nat → Char} {n : Nat}

theorem Written.start (pos : 0 < n) : Written linebuf n [] ⟨0, linebuf⟩ :=
  ⟨rfl, pos, fun i inside => absurd inside (Nat.not_lt_zero i), fun _ _ => rfl⟩

theorem Written.put {text : List Char} {o : Out} (written : Written linebuf n text o) (more : text.length + 1 < n) (c : Char) :
    Written linebuf n (text ++ [c]) (Vsprintf.put none o c) := by
  have mem (i : Nat) : (Vsprintf.put none o c).mem i = if i = text.length then c else o.mem i := by
    have free : before o.pos none = true := rfl
    rw [Vsprintf.put, if_pos free, written.pos]
    exact Function.update_apply ..
  refine ⟨?_, by rw [List.length_append]; exact more, fun i inside => ?_, fun i beyond => ?_⟩
  · change o.pos + 1 = _
    rw [written.pos, List.length_append]
    rfl
  · rw [mem]
    by_cases last : i = text.length
    · rw [if_pos last, last, List.getElem?_append_right le_rfl, Nat.sub_self]
      rfl
    · rw [List.length_append, List.length_singleton] at inside
      rw [if_neg last, List.getElem?_append_left (by omega)]
      exact written.text i (by omega)
  · rw [mem, if_neg (by omega)]
    exact written.outside i beyond

/-- The text without its last characters. -/
theorem Written.take {text : List Char} {o : Out} (written : Written linebuf n text o) {k : Nat} (le : k ≤ text.length) :
    Written linebuf n (text.take k) { o with pos := k } := by
  have length : (text.take k).length = k := List.length_take_of_le le
  refine ⟨length.symm, ?_, fun i inside => ?_, written.outside⟩
  · rw [length]
    exact le.trans_lt written.room
  · rw [length] at inside
    rw [List.getElem?_take_of_lt inside]
    exact written.text i (by omega)

/-- A null behind the text. -/
theorem Written.shown {text line : List Char} {o : Out} (written : Written linebuf n text o) (cut : text = line.take (n - 1)) :
    Shown linebuf n line (Function.update o.mem o.pos nul) := by
  have length : text.length = min line.length (n - 1) := by
    rw [cut, List.length_take, min_comm]
  have room := written.room
  rw [written.pos]
  refine ⟨fun i inside before => ?_, fun _ => ?_, fun i beyond => ?_⟩
  · have here := written.text i (by omega)
    rw [Function.update_of_ne (by omega), ← here, cut, List.getElem?_take_of_lt (by omega)]
  · rw [length]
    exact Function.update_self ..
  · rw [Function.update_of_ne (by omega)]
    exact written.outside i beyond

/-! ## Stages of a line -/

/-- What has become of a line: it is written, or it was cut before the end of the buffer. -/
def Stage (linebuf : Nat → Char) (n : Nat) (line : List Char) : Except Jump Out → Prop
  | .ok o => Written linebuf n line o
  | .error (.overflow2 o) => n ≤ line.length + 1 ∧ Written linebuf n (line.take (n - 1)) o
  | .error (.overflow1 o) => n ≤ line.length ∧ Shown linebuf n line o.mem
  | .error .fault => False

theorem Shown.append {line : List Char} {mem : Nat → Char} (shown : Shown linebuf n line mem) (full : n ≤ line.length) (more : List Char) :
    Shown linebuf n (line ++ more) mem := by
  refine ⟨fun i _ before => ?_, fun pos => ?_, shown.outside⟩
  · rw [List.getElem?_append_left (by omega)]
    exact shown.text i (by omega) before
  · have same : min (line ++ more).length (n - 1) = min line.length (n - 1) := by
      rw [List.length_append]
      omega
    rw [same]
    exact shown.nul pos

/-- One stage after the other. -/
theorem Stage.bind {line more : List Char} {first : Except Jump Out} {next : Out → Except Jump Out} (stage : Stage linebuf n line first)
    (rest : ∀ o, Written linebuf n line o → Stage linebuf n (line ++ more) (next o)) : Stage linebuf n (line ++ more) (first >>= next) := by
  cases first with
  | ok o => exact rest o stage
  | error jump =>
      cases jump with
      | overflow1 o =>
          obtain ⟨full, shown⟩ := stage
          refine ⟨?_, shown.append full more⟩
          rw [List.length_append]
          omega
      | overflow2 o =>
          obtain ⟨full, written⟩ := stage
          refine ⟨by rw [List.length_append]; omega, ?_⟩
          rw [List.take_append_of_le_length (by omega)]
          exact written
      | fault => exact stage

/-- One character after the other. -/
def storeAll (linebuflen : Nat) (o : Out) (cs : List Char) : Except Jump Out := cs.foldlM (store linebuflen) o

theorem storeAll_written {text cs : List Char} {o : Out} (written : Written linebuf n text o) :
    (∃ o', storeAll n o cs = .ok o' ∧ Written linebuf n (text ++ cs) o') ∨
    ∃ o', storeAll n o cs = .error (.overflow2 o') ∧ n ≤ (text ++ cs).length ∧ Written linebuf n ((text ++ cs).take (n - 1)) o' := by
  induction cs generalizing text o with
  | nil => exact .inl ⟨o, rfl, by rwa [List.append_nil]⟩
  | cons c cs ih =>
      have room := written.room
      rw [storeAll, List.foldlM_cons]
      by_cases full : n < o.pos + 2
      · have stop : store n o c = .error (.overflow2 o) := if_pos full
        rw [written.pos] at full
        refine .inr ⟨o, by rw [stop]; rfl, by rw [List.length_append, List.length_cons]; omega, ?_⟩
        have cut : n - 1 = text.length := by omega
        rw [cut, List.take_left]
        exact written
      · have go : store n o c = .ok (put none o c) := if_neg full
        rw [written.pos] at full
        rw [go]
        have next := ih (written.put (by omega) c)
        rw [List.append_assoc, List.singleton_append] at next
        exact next

theorem storeAll_stage {text cs : List Char} {o : Out} (written : Written linebuf n text o) : Stage linebuf n (text ++ cs) (storeAll n o cs) := by
  rcases @storeAll_written _ _ _ cs _ written with ⟨o', run, written'⟩ | ⟨o', run, full, written'⟩
  · rw [run]
    exact written'
  · rw [run]
    exact ⟨by omega, written'⟩

/-! ## Columns of bytes -/

theorem dumpBytes_eq (ptr : List Byte) (o : Out) : dumpBytes n ptr o = storeAll n o (ptr.flatMap fun x => hexBytePack x ++ [' ']) := by
  induction ptr generalizing o with
  | nil => rfl
  | cons x ptr ih =>
      have text : (x :: ptr).flatMap (fun x => hexBytePack x ++ [' ']) =
        hexAscHi x :: hexAscLo x :: ' ' :: ptr.flatMap fun x => hexBytePack x ++ [' '] := rfl
      rw [dumpBytes, text, storeAll, List.foldlM_cons]
      refine bind_congr fun o => ?_
      rw [List.foldlM_cons]
      refine bind_congr fun o => ?_
      rw [List.foldlM_cons]
      exact bind_congr ih

theorem padColumn_eq (k : Nat) (o : Out) : padColumn n k o = storeAll n o (List.replicate k ' ') := by
  induction k generalizing o with
  | zero => rfl
  | succ k ih =>
      rw [padColumn, List.replicate_succ, storeAll, List.foldlM_cons]
      exact bind_congr ih

theorem dumpAscii_eq (ptr : List Byte) (o : Out) : dumpAscii n ptr o = storeAll n o (ptr.map asciiChar) := by
  induction ptr generalizing o with
  | nil => rfl
  | cons x ptr ih =>
      rw [dumpAscii, List.map_cons, storeAll, List.foldlM_cons]
      exact bind_congr ih

/-- Every byte is followed by a space, the last one too. -/
theorem bytes_columns (buf : Nat → Byte) {len : Nat} (some : len ≠ 0) :
    (bytes buf len).flatMap (fun x => hexBytePack x ++ [' ']) = hexColumns buf 1 len ++ [' '] := by
  have one (j : Nat) : groupText buf 1 j = (if j = 0 then [] else [' ']) ++ hexBytePack (buf j) := by
    have single : group buf 1 j = [buf j] := by
      rw [group, Nat.one_mul]
      rfl
    rw [groupText, single]
    rfl
  induction len with
  | zero => exact absurd rfl some
  | succ len ih =>
      rw [bytes, List.range_succ, List.map_append, List.flatMap_append, hexColumns_succ, one]
      cases len with
      | zero => rfl
      | succ len =>
          have before := ih (Nat.succ_ne_zero len)
          rw [bytes] at before
          rw [before, if_neg (Nat.succ_ne_zero len)]
          simp only [List.map_cons, List.map_nil, List.flatMap_cons, List.flatMap_nil, List.append_nil, List.append_assoc]

/-- The cursor goes back over the last space. -/
theorem dumpBytes_stage {buf : Nat → Byte} {len : Nat} (some : len ≠ 0) {o : Out} (written : Written linebuf n [] o) :
    Stage linebuf n (hexColumns buf 1 len) (do
      let o ← dumpBytes n (bytes buf len) o
      .ok (if len ≠ 0 then { o with pos := o.pos - 1 } else o)) := by
  rw [dumpBytes_eq, bytes_columns buf some]
  rcases @storeAll_written _ _ _ (hexColumns buf 1 len ++ [' ']) _ written with ⟨o', run, written'⟩ | ⟨o', run, full, written'⟩
  · rw [List.nil_append] at written'
    have back := written'.take (k := (hexColumns buf 1 len).length) (by rw [List.length_append]; omega)
    have pos : o'.pos - 1 = (hexColumns buf 1 len).length := by
      rw [written'.pos, List.length_append]
      rfl
    rw [List.take_left, ← pos] at back
    rw [run]
    change Written linebuf n _ (if len ≠ 0 then { o' with pos := o'.pos - 1 } else o')
    rw [if_pos some]
    exact back
  · rw [List.nil_append] at full written'
    have room := written'.room
    rw [List.length_append, List.length_singleton] at full
    rw [run]
    refine ⟨full, ?_⟩
    rw [List.take_append_of_le_length (by omega)] at written'
    exact written'

/-! ## Numbers of a group -/

theorem low_nibble (m : Nat) : m &&& 15 = m % 16 := Nat.and_two_pow_sub_one_eq_mod m 4

/-- The digits of `number` are the ones of `hex_byte_pack`. -/
theorem digitOf_small {d : Nat} (digit : d < 16) : digitOf 0x20 d = hexAsc d := by
  have all : ∀ d < 16, digitOf 0x20 d = hexAsc d := by decide
  exact all d digit

theorem shiftDigits_padded {fuel k num : Nat} (enough : k ≤ fuel) (pos : 0 < k) (small : num < 16 ^ k) :
    (shiftDigits 16 4 0x20 fuel num).length ≤ k ∧
    shiftDigits 16 4 0x20 fuel num ++ List.replicate (k - (shiftDigits 16 4 0x20 fuel num).length) '0' = (lowDigits 16 k num).map hexAsc := by
  have zero (k : Nat) : (lowDigits 16 k 0).map hexAsc = List.replicate k '0' := by
    induction k with
    | zero => rfl
    | succ k ih =>
        rw [lowDigits, List.map_cons, Nat.zero_div, ih, List.replicate_succ]
        rfl
  induction k generalizing fuel num with
  | zero => exact absurd pos (Nat.lt_irrefl 0)
  | succ k ih =>
      obtain ⟨fuel, rfl⟩ : ∃ f, fuel = f + 1 := ⟨fuel - 1, by omega⟩
      have low : num % 256 &&& (16 - 1) = num % 16 := (low_nibble _).trans (Nat.mod_mod_of_dvd num (by decide))
      have rest : num / 16 < 16 ^ k := by
        rw [Nat.div_lt_iff_lt_mul (by decide)]
        exact small.trans_eq (Nat.pow_succ ..)
      rw [shiftDigits, low, digitOf_small (Nat.mod_lt num (by decide)), lowDigits, List.map_cons]
      by_cases more : num / 2 ^ 4 = 0
      · have none : num / 16 = 0 := more
        simp only [if_neg (not_not.mpr more), List.length_singleton, none, zero, List.singleton_append, Nat.add_sub_cancel]
        exact ⟨by omega, trivial⟩
      · have some : 0 < k := by
          rcases Nat.eq_zero_or_pos k with rfl | some
          · rw [Nat.pow_zero] at rest
            exact absurd (by omega : num / 2 ^ 4 = 0) more
          · exact some
        obtain ⟨length, digits⟩ := ih (by omega : k ≤ fuel) some rest
        have count (m : Nat) : k + 1 - (m + 1) = k - m := by omega
        have same : num / 2 ^ 4 = num / 16 := rfl
        rw [same] at more
        simp only [same, if_pos more, List.length_cons, List.cons_append, count, digits, and_true]
        omega

theorem numberDigits_padded {k num : Nat} (within : k ≤ 16) (pos : 0 < k) (small : num < 16 ^ k) :
    (numberDigits 16 0x20 num).length ≤ k ∧
    numberDigits 16 0x20 num ++ List.replicate (k - (numberDigits 16 0x20 num).length) '0' = (lowDigits 16 k num).map hexAsc := by
  have same : numberDigits 16 0x20 num = shiftDigits 16 4 0x20 64 num := by
    rw [numberDigits]
    by_cases one : num < 16
    · have low : num % 256 &&& (16 - 1) = num := by
        have mask : num % 256 &&& (16 - 1) = num % 256 % 16 := low_nibble _
        omega
      have none : num / 2 ^ 4 = 0 := by omega
      rw [if_pos one, shiftDigits, low]
      simp only [none, ne_eq, not_true_eq_false, if_false]
    · rw [if_neg one, if_pos (by decide), if_pos rfl]
  rw [same]
  exact shiftDigits_padded (by omega) pos small

/-- The bytes of a group, the last one first, are the digits of its value. -/
theorem pack_digits (bs : List Byte) : (bs.reverse.flatMap hexBytePack).reverse = (lowDigits 16 (2 * bs.length) (getUnaligned bs)).map hexAsc := by
  induction bs with
  | nil => rfl
  | cons x bs ih =>
      have value : getUnaligned (x :: bs) = x.val + 256 * getUnaligned bs := by
        rw [getUnaligned, List.map_cons, Nat.ofDigits_cons]
        rfl
      have lt := x.isLt
      have lo : getUnaligned (x :: bs) % 16 = (x &&& 0x0f : Nat) := by
        rw [low_nibble]
        omega
      have hi : getUnaligned (x :: bs) / 16 % 16 = ((x &&& 0xf0) >>> 4 : Nat) := by
        have all : ∀ x : Byte, ((x &&& 0xf0) >>> 4 : Nat) = x.val / 16 := by decide +kernel
        rw [all x]
        omega
      have rest : getUnaligned (x :: bs) / 16 / 16 = getUnaligned bs := by omega
      have twice : 2 * (x :: bs).length = 2 * bs.length + 1 + 1 := by
        rw [List.length_cons]
        omega
      rw [List.reverse_cons, List.flatMap_append, List.reverse_append, ih, twice, lowDigits, lowDigits, lo, hi, rest]
      rfl

theorem getUnaligned_lt (bs : List Byte) : getUnaligned bs < 16 ^ (2 * bs.length) := by
  have lt := Nat.ofDigits_lt_base_pow_length (b := 256) (l := bs.map Fin.val) (by decide) (by
    intro d member
    obtain ⟨x, -, rfl⟩ := List.mem_map.mp member
    exact x.isLt)
  rw [List.length_map] at lt
  have square : 16 ^ (2 * bs.length) = 256 ^ bs.length := by rw [Nat.pow_mul]
  rw [square]
  exact lt

/-- The specification of a group's number. -/
structure GroupSpec (spec : PrintfSpec) (digits : Nat) : Prop where
  flags : spec.flags = { Flags.zero with small := true }
  base : spec.base = 16
  width : spec.fieldWidth = digits
  precision : spec.precision = digits

theorem numberText_group {bs : List Byte} {spec : PrintfSpec} (is : GroupSpec spec (2 * bs.length)) (some : bs ≠ []) (within : bs.length ≤ 8) :
    numberText (getUnaligned bs) spec = bs.reverse.flatMap hexBytePack := by
  have pos := List.length_pos_iff.mpr some
  obtain ⟨length, digits⟩ := @numberDigits_padded (2 * bs.length) (getUnaligned bs) (by omega) (by omega) (getUnaligned_lt bs)
  have none : padCount 0 = 0 := rfl
  have none' : padCount (padRest 0) = 0 := rfl
  have none'' : padCount (padRest (padRest 0)) = 0 := rfl
  have still : s16 0 = 0 := rfl
  have count : ((if ((numberDigits 16 0x20 (getUnaligned bs)).length : Int) > (2 * bs.length : Nat) then
      ((numberDigits 16 0x20 (getUnaligned bs)).length : Int) else (2 * bs.length : Nat))) = (2 * bs.length : Nat) := if_neg (by omega)
  have fill : (((2 * bs.length : Nat) : Int) - (numberDigits 16 0x20 (getUnaligned bs)).length).toNat =
      2 * bs.length - (numberDigits 16 0x20 (getUnaligned bs)).length := by omega
  rw [← pack_digits] at digits
  have text := congrArg List.reverse digits
  rw [List.reverse_append, List.reverse_replicate, List.reverse_reverse] at text
  unfold numberText numberSign
  simp only [is.flags, is.base, is.width, is.precision, Flags.zero, Bool.false_and, Bool.false_eq_true, if_false, if_true, Bool.or_false,
    Bool.not_false, count, Int.sub_self, still, padText, none, none', none'', fill, List.replicate_zero, List.nil_append, List.append_nil]
  exact text

/-! ## Columns of groups -/

/-- The specification that `%s` leaves. -/
def textSpec : PrintfSpec := { PrintfSpec.zero with type := .str, base := 10, qualifier := noQualifier, fieldWidth := -1, precision := -1 }

theorem string_plain (b : Bound) (o : Out) {s : List Char} (short : s.length < 2 ^ 31) : string b o (some s) textSpec = emit b o s := by
  have fill (o : Out) {w : Int} (negative : w < 0) : fillWhile b s.length (2 ^ 15 + 1) o w = (o, s16 (w - 1)) := by
    rw [fillWhile]
    exact if_neg (by omega)
  have whole : min s.length ((-1 : Int) % 2 ^ 64).toNat = s.length := by
    have value : ((-1 : Int) % 2 ^ 64).toNat = 18446744073709551615 := by decide
    rw [value]
    omega
  have width : s16 (-1 - 1) < 0 := by decide
  unfold string Vsprintf.fill
  simp only [textSpec, PrintfSpec.zero, Flags.zero, Option.getD_some, Bool.false_eq_true, if_false, whole, fill o (by decide : (-1 : Int) < 0),
    List.take_length, fill _ width]

theorem literal_text (bs : List Byte) : (literal bs : Pointer Empty).text = some (some ((bs.takeWhile (· ≠ 0)).map Byte.char)) := by
  have addr : (literal bs : Pointer Empty).addr.toNat = pageSize := by
    change (BitVec.ofNat 64 pageSize).toNat = pageSize
    decide
  rw [Pointer.text, addr, if_neg (by decide), if_neg (by decide)]
  rfl

/-- Every group prints its text. -/
def Prints (fmt : CString) (value : Nat → VArg 0) (text : Nat → List Char) : Prop := ∀ (b : Bound) (o : Out) (j : Nat),
  printLoop vaArgs (callees 0) b ⟨fmt.chars, .zero, [.ptr (literal (if j = 0 then [] else [32])), value j], o⟩ = some (emit b o (text j))

theorem prints_group {fmt : CString} {rest : List Char} {spec : PrintfSpec} {value : Nat → VArg 0} {buf : Nat → Byte} {g : Nat}
    (first : formatDecode fmt.chars .zero = (rest, textSpec)) (second : formatDecode rest textSpec = ([], spec)) (more : charAt fmt.chars 0 ≠ nul)
    (more' : charAt rest 0 ≠ nul) (is : GroupSpec spec (2 * g)) (type : spec.type = .longLong ∨ spec.type = .uint)
    (arg : ∀ j, ∃ w, vaNumber spec.type [value j] = some (w, []) ∧ w.toNat = getUnaligned (group buf g j)) (pos : 0 < g) (within : g ≤ 8) :
    Prints fmt value (groupText buf g) := by
  intro b o j
  have gap : ((if j = 0 then ([] : List Byte) else [32]).takeWhile (· ≠ 0)).map Byte.char = if j = 0 then [] else [' '] := by
    split <;> rfl
  have short : (if j = 0 then ([] : List Char) else [' ']).length < 2 ^ 31 := by
    split <;> decide
  obtain ⟨w, read, num⟩ := arg j
  have length : (group buf g j).length = g := by rw [group, List.length_map, List.length_range]
  have printed (o : Out) : number b o w.toNat spec = emit b o ((group buf g j).reverse.flatMap hexBytePack) := by
    have precision : spec.precision < 2 ^ 15 := by
      rw [is.precision]
      omega
    have some : group buf g j ≠ [] := fun none => by
      rw [none] at length
      exact absurd length.symm pos.ne'
    rw [number_eq b o w.isLt precision, num, numberText_group (length.symm ▸ is) some (length.symm ▸ within)]
  have one : printStep vaArgs (callees 0) b ⟨fmt.chars, .zero, [.ptr (literal (if j = 0 then [] else [32])), value j], o⟩ =
      some ⟨rest, textSpec, [value j], emit b o (if j = 0 then [] else [' '])⟩ := by
    have text : vaArgs.str [.ptr (literal (if j = 0 then [] else [32])), value j] = some (some (if j = 0 then [] else [' ']), [value j]) := by
      change (do some (← (literal (if j = 0 then [] else [32]) : Pointer Empty).text, [value j])) = _
      rw [literal_text, gap]
      rfl
    unfold printStep
    simp only [first]
    change (do
      let (s, args) ← vaArgs.str [.ptr (literal (if j = 0 then [] else [32])), value j]
      some (⟨rest, textSpec, args, string b o s textSpec⟩ : PrintState (List (VArg 0)))) = _
    rw [text]
    exact congrArg some (congrArg (PrintState.mk rest textSpec [value j]) (string_plain b o short))
  have two (o : Out) : printStep vaArgs (callees 0) b ⟨rest, textSpec, [value j], o⟩ =
      some ⟨[], spec, [], emit b o ((group buf g j).reverse.flatMap hexBytePack)⟩ := by
    have argument : vaArgs.number spec.type spec.flags [value j] = some (w.toNat, []) := by
      change (vaNumber spec.type [value j]).map _ = _
      rw [read]
      rfl
    unfold printStep
    simp only [second]
    rcases type with type | type
    all_goals
      simp only [type] at argument ⊢
      rw [argument]
      exact congrArg some (congrArg (PrintState.mk [] spec []) (printed o))
  rw [printLoop_step more, one, Option.bind_some, printLoop_step more', two, Option.bind_some, printLoop_end rfl, groupText, emit_append]

theorem emit_terminated {text cs : List Char} {o : Out} (written : Written linebuf n text o) :
    (terminate (some n) o.pos (emit (some n) o cs)).pos = o.pos + cs.length ∧
    (text.length + cs.length < n → Written linebuf n (text ++ cs) (terminate (some n) o.pos (emit (some n) o cs))) ∧
    (n ≤ text.length + cs.length → Shown linebuf n (text ++ cs) (terminate (some n) o.pos (emit (some n) o cs)).mem) := by
  have room := written.room
  have pos := written.pos
  have emitted : (emit (some n) o cs).pos = o.pos + cs.length := emit_pos o cs
  have here {i : Nat} (inside : i < (text ++ cs).length) (before : i < n) : (text ++ cs)[i]? = some ((emit (some n) o cs).mem i) := by
    have free : Vsprintf.before i (some n) = true := decide_eq_true before
    rw [List.length_append] at inside
    rw [emit_mem]
    by_cases new : o.pos ≤ i
    · rw [if_pos ⟨free, new⟩, List.getElem?_append_right (by omega), ← pos, List.getElem?_eq_getElem (by omega)]
      rfl
    · rw [if_neg fun both => new both.2, List.getElem?_append_left (by omega)]
      exact written.text i (by omega)
  have beyond {i : Nat} (out : n ≤ i) : (emit (some n) o cs).mem i = linebuf i := by
    have closed : ¬ (Vsprintf.before i (some n) = true ∧ o.pos ≤ i) := fun both => absurd (of_decide_eq_true both.1) (Nat.not_lt.mpr out)
    rw [emit_mem, if_neg closed]
    exact written.outside i out
  have ended : terminate (some n) o.pos (emit (some n) o cs) = ⟨o.pos + cs.length,
      Function.update (emit (some n) o cs).mem (if o.pos + cs.length < n then o.pos + cs.length else n - 1) nul⟩ := by
    rw [terminate, if_pos (by omega : 0 < n - o.pos), emitted]
  rw [ended]
  refine ⟨rfl, fun fits => ?_, fun full => ?_⟩
  · rw [if_pos (by omega : o.pos + cs.length < n)]
    refine ⟨?_, by rw [List.length_append]; exact fits, fun i inside => ?_, fun i out => ?_⟩
    · rw [List.length_append, ← pos]
    · have length := inside
      rw [List.length_append] at length
      have other : i ≠ o.pos + cs.length := by omega
      exact (here inside (by omega)).trans (congrArg some (Function.update_of_ne other _ _).symm)
    · have other : i ≠ o.pos + cs.length := by omega
      exact (Function.update_of_ne other _ _).trans (beyond out)
  · rw [if_neg (by omega : ¬ o.pos + cs.length < n)]
    refine ⟨fun i inside before => ?_, fun _ => ?_, fun i out => ?_⟩
    · have other : i ≠ n - 1 := by omega
      exact (here inside (by omega)).trans (congrArg some (Function.update_of_ne other _ _).symm)
    · have last : min (text ++ cs).length (n - 1) = n - 1 := by
        rw [List.length_append]
        omega
      rw [last]
      exact Function.update_self ..
    · have other : i ≠ n - 1 := by omega
      exact (Function.update_of_ne other _ _).trans (beyond out)

/-- The size that is left for `snprintf` is not negative as an `int`. -/
def Sized (n p : Nat) : Prop := (n - p) % 2 ^ 32 < 2 ^ 31

section

variable {fmt : CString} {value : Nat → VArg 0} {buf : Nat → Byte} {g : Nat}

theorem hexColumns_add (buf : Nat → Byte) (g a b : Nat) : ∃ more, hexColumns buf g (a + b) = hexColumns buf g a ++ more := by
  induction b with
  | zero => exact ⟨[], (List.append_nil _).symm⟩
  | succ b ih =>
      obtain ⟨more, eq⟩ := ih
      exact ⟨more ++ groupText buf g (a + b), by rw [← Nat.add_assoc, hexColumns_succ, eq, List.append_assoc]⟩

/-- Groups are printed as long as the size is good. -/
theorem dumpGroups_stage (prints : Prints fmt value (groupText buf g)) {left j : Nat} {o : Out} (written : Written linebuf n (hexColumns buf g j) o)
    (sized : ∀ i, j ≤ i → i < j + left → Sized n (hexColumns buf g i).length) :
    Stage linebuf n (hexColumns buf g (j + left)) (dumpGroups n fmt value left j o) := by
  induction left generalizing j o with
  | zero => exact written
  | succ left ih =>
      have good := sized j le_rfl (by omega)
      rw [Sized, ← written.pos] at good
      have run : printf vaArgs (callees 0) (some n) o fmt [.ptr (literal (if j = 0 then [] else [32])), value j] =
          some (terminate (some n) o.pos (emit (some n) o (groupText buf g j))) := by
        have positive : ¬ ∃ e ∈ some n, 2 ^ 31 ≤ (e - o.pos) % 2 ^ 32 := by
          rintro ⟨e, is, negative⟩
          cases is
          omega
        rw [printf, if_neg positive, prints]
        rfl
      obtain ⟨pos, fits, full⟩ := @emit_terminated _ _ _ (groupText buf g j) _ written
      rw [dumpGroups]
      simp only [run]
      have room := written.room
      have at_ := written.pos
      rw [pos]
      by_cases cut : n - o.pos ≤ o.pos + (groupText buf g j).length - o.pos
      · rw [if_pos cut]
        obtain ⟨more, eq⟩ := hexColumns_add buf g (j + 1) left
        have shown := full (by omega)
        rw [← hexColumns_succ] at shown
        have length : n ≤ (hexColumns buf g (j + 1)).length := by
          rw [hexColumns_succ, List.length_append]
          omega
        have next : j + (left + 1) = j + 1 + left := by omega
        rw [next, eq]
        refine ⟨?_, shown.append length more⟩
        rw [List.length_append]
        omega
      · rw [if_neg cut]
        have written' := fits (by omega)
        rw [← hexColumns_succ] at written'
        have next : j + (left + 1) = j + 1 + left := by omega
        rw [next]
        exact ih written' fun i after before => sized i (by omega) (by omega)

/-- Once the size is negative every group is left out. -/
theorem dumpGroups_skipped {o : Out} (negative : ¬ Sized n o.pos) (left j : Nat) : dumpGroups n fmt value left j o = .ok o := by
  rw [Sized, Nat.not_lt] at negative
  have room : 0 < n - o.pos := by
    by_contra none
    have zero : n - o.pos = 0 := by omega
    rw [zero] at negative
    omega
  induction left generalizing j with
  | zero => rfl
  | succ left ih =>
      have run : printf vaArgs (callees 0) (some n) o fmt [.ptr (literal (if j = 0 then [] else [32])), value j] = some o :=
        if_pos ⟨n, rfl, negative⟩
      rw [dumpGroups]
      simp only [run]
      rw [if_neg (by omega), ih]

theorem dumpGroups_add (a b j : Nat) (o : Out) :
    dumpGroups n fmt value (a + b) j o = dumpGroups n fmt value a j o >>= dumpGroups n fmt value b (j + a) := by
  induction a generalizing j o with
  | zero =>
      rw [Nat.zero_add]
      rfl
  | succ a ih =>
      have next : j + (a + 1) = j + 1 + a := by omega
      rw [Nat.add_right_comm, dumpGroups, dumpGroups, next]
      cases printf vaArgs (callees 0) (some n) o fmt [.ptr (literal (if j = 0 then [] else [32])), value j] with
      | none => rfl
      | some o' =>
          simp only
          split
          · rfl
          · exact ih (j + 1) o'

end

/-- At the first group with a negative size the columns end. -/
theorem dumpGroups_stuck {fmt : CString} {value : Nat → VArg 0} {buf : Nat → Byte} {g k ngroups : Nat} (prints : Prints fmt value (groupText buf g))
    {o : Out} (written : Written linebuf n [] o) (less : k < ngroups) (sized : ∀ i < k, Sized n (hexColumns buf g i).length)
    (negative : ¬ Sized n (hexColumns buf g k).length) :
    ∃ o', dumpGroups n fmt value ngroups 0 o = .ok o' ∧ Written linebuf n (hexColumns buf g k) o' := by
  have stage := @dumpGroups_stage linebuf n _ _ _ _ prints k 0 o written fun i _ before => sized i (by omega)
  obtain ⟨rest, total⟩ : ∃ rest, ngroups = k + rest := ⟨ngroups - k, by omega⟩
  have big : (hexColumns buf g k).length + 2 ^ 31 ≤ n := by
    rw [Sized, Nat.not_lt] at negative
    have le := negative.trans (Nat.mod_le _ _)
    omega
  rw [Nat.zero_add] at stage
  rw [total, dumpGroups_add]
  cases run : dumpGroups n fmt value k 0 o with
  | ok o' =>
      rw [run] at stage
      have pos := (stage : Written linebuf n _ o').pos
      exact ⟨o', dumpGroups_skipped (pos ▸ negative) rest (0 + k), stage⟩
  | error jump =>
      rw [run] at stage
      cases jump with
      | overflow1 o' => exact absurd stage.1 (by omega)
      | overflow2 o' => exact absurd stage.1 (by omega)
      | fault => exact stage.elim

/-! ## The three sizes of larger groups -/

def groupSpec (type : FormatType) (qualifier : Char) (digits : Nat) : PrintfSpec :=
  ⟨type, { Flags.zero with small := true }, 16, qualifier, digits, digits⟩

theorem group_value (buf : Nat → Byte) (g j : Nat) : getUnaligned (group buf g j) < 16 ^ (2 * g) := by
  have lt := getUnaligned_lt (group buf g j)
  rwa [group, List.length_map, List.length_range] at lt

theorem prints_u64 (buf : Nat → Byte) : Prints ⟨"%s%16.16llx".toList, by decide⟩
    (fun j => .long (BitVec.ofNat 64 (getUnaligned (group buf 8 j)))) (groupText buf 8) :=
  @prints_group _ _ (groupSpec .longLong 'L' 16) _ _ _ (by rfl) (by rfl) (by decide) (by decide) ⟨rfl, rfl, rfl, rfl⟩ (.inl rfl)
    (fun j => ⟨_, rfl, by rw [BitVec.toNat_ofNat]; exact Nat.mod_eq_of_lt (group_value buf 8 j)⟩) (by decide) (by decide)

theorem prints_u32 (buf : Nat → Byte) : Prints ⟨"%s%8.8x".toList, by decide⟩
    (fun j => .int (BitVec.ofNat 32 (getUnaligned (group buf 4 j)))) (groupText buf 4) :=
  @prints_group _ _ (groupSpec .uint noQualifier 8) _ _ _ (by rfl) (by rfl) (by decide) (by decide) ⟨rfl, rfl, rfl, rfl⟩ (.inr rfl)
    (fun j => ⟨_, rfl, by
      have lt := group_value buf 4 j
      rw [BitVec.toNat_setWidth, BitVec.toNat_ofNat]
      omega⟩) (by decide) (by decide)

theorem prints_u16 (buf : Nat → Byte) : Prints ⟨"%s%4.4x".toList, by decide⟩
    (fun j => .int (BitVec.ofNat 32 (getUnaligned (group buf 2 j)))) (groupText buf 2) :=
  @prints_group _ _ (groupSpec .uint noQualifier 4) _ _ _ (by rfl) (by rfl) (by decide) (by decide) ⟨rfl, rfl, rfl, rfl⟩ (.inr rfl)
    (fun j => ⟨_, rfl, by
      have lt := group_value buf 2 j
      rw [BitVec.toNat_setWidth, BitVec.toNat_ofNat]
      omega⟩) (by decide) (by decide)

/-! ## Sizes -/

theorem isPowerOf2_int {v : BitVec 32} (power : isPowerOf2 (v.signExtend 64).toNat = true) (small : ¬ 8 < v.toInt) :
    v.toNat = 1 ∨ v.toNat = 2 ∨ v.toNat = 4 ∨ v.toNat = 8 := by
  have word := v.isLt
  rw [BitVec.toInt_eq_toNat_cond] at small
  by_cases negative : 2 * v.toNat < 2 ^ 32
  · rw [if_pos negative] at small
    have within : v.toNat ≤ 8 := by omega
    have small : ∀ k ≤ 8, isPowerOf2 ((BitVec.ofNat 32 k).signExtend 64).toNat = true → k = 1 ∨ k = 2 ∨ k = 4 ∨ k = 8 := by decide
    have same : BitVec.ofNat 32 v.toNat = v := BitVec.eq_of_toNat_eq ((BitVec.toNat_ofNat ..).trans (Nat.mod_eq_of_lt word))
    have power' := small v.toNat within
    rw [same] at power'
    exact power' power
  · -- the highest bit is set in the number and in the one before it
    have top {x : Nat} (from_ : 2 ^ 63 ≤ x) (below : x < 2 ^ 64) : x.testBit 63 = true := by
      rw [Nat.testBit_eq_decide_div_mod_eq, decide_eq_true_eq]
      omega
    have minus : v.msb = true := by
      rw [BitVec.msb_eq_decide, decide_eq_true_eq]
      omega
    have value : (v.signExtend 64).toNat = v.toNat + (2 ^ 64 - 2 ^ 32) := by
      rw [BitVec.toNat_signExtend, BitVec.toNat_setWidth, if_pos minus]
      omega
    have none := (of_decide_eq_true power).2
    rw [value] at none
    have bit := congrArg (Nat.testBit · 63) none
    rw [Nat.testBit_and, top (by omega) (by omega), top (by omega) (by omega), Nat.zero_testBit] at bit
    cases bit

theorem layout_cases (len : Nat) (rowsize groupsize : BitVec 32) :
    ((layout len rowsize groupsize).rowsize = 16 ∨ (layout len rowsize groupsize).rowsize = 32) ∧
    (layout len rowsize groupsize).len ≤ (layout len rowsize groupsize).rowsize ∧
    ((layout len rowsize groupsize).groupsize = 1 ∨ (layout len rowsize groupsize).groupsize = 2 ∨ (layout len rowsize groupsize).groupsize = 4 ∨
      (layout len rowsize groupsize).groupsize = 8) ∧
    (layout len rowsize groupsize).len % (layout len rowsize groupsize).groupsize = 0 ∧ ((layout len rowsize groupsize).len = 0 ↔ len = 0) := by
  have rows : (if rowsize ≠ 16 ∧ rowsize ≠ 32 then 16 else rowsize.toNat) = 16 ∨
      (if rowsize ≠ 16 ∧ rowsize ≠ 32 then 16 else rowsize.toNat) = 32 := by
    split
    · exact .inl rfl
    · rename_i known
      by_cases first : rowsize = 16
      · exact .inl (congrArg BitVec.toNat first)
      · have second : rowsize = 32 := by
          by_contra other
          exact known ⟨first, other⟩
        exact .inr (congrArg BitVec.toNat second)
  have groups : ∀ m, (if ¬ isPowerOf2 (groupsize.signExtend 64).toNat ∨ 8 < groupsize.toInt then 1 else groupsize.toNat) = m →
      m = 1 ∨ m = 2 ∨ m = 4 ∨ m = 8 := by
    rintro _ rfl
    split
    · exact .inl rfl
    · rename_i known
      rw [not_or, not_not] at known
      exact isPowerOf2_int known.1 known.2
  unfold layout
  simp only
  generalize (if rowsize ≠ 16 ∧ rowsize ≠ 32 then 16 else rowsize.toNat) = rows' at rows ⊢
  generalize (if ¬ isPowerOf2 (groupsize.signExtend 64).toNat ∨ 8 < groupsize.toInt then 1 else groupsize.toNat) = g at groups ⊢
  have known := groups g rfl
  have shorter : (if rows' < len then rows' else len) ≤ rows' := by
    split <;> omega
  have empty : (if rows' < len then rows' else len) = 0 ↔ len = 0 := by
    split <;> omega
  generalize (if rows' < len then rows' else len) = len' at shorter empty ⊢
  refine ⟨rows, shorter, ?_, ?_, empty⟩
  · split
    · exact .inl rfl
    · exact known
  · split
    · exact Nat.mod_one _
    · rename_i divides
      exact not_not.mp divides

/-! ## The whole line -/

section

variable {l : Layout} (rows : l.rowsize = 16 ∨ l.rowsize = 32) (short : l.len ≤ l.rowsize)
  (groups : l.groupsize = 1 ∨ l.groupsize = 2 ∨ l.groupsize = 4 ∨ l.groupsize = 8) (whole : l.len % l.groupsize = 0) (some : l.len ≠ 0)
  (buf : Nat → Byte)

include whole in
theorem ngroups_eq : l.groupsize * l.ngroups = l.len := by
  have parts := Nat.div_add_mod l.len l.groupsize
  rwa [whole, Nat.add_zero] at parts

include short groups whole in
theorem columns_fit : (hexColumns buf l.groupsize l.ngroups).length + 1 < l.asciiColumn + 1 := by
  have count := ngroups_eq whole
  rw [hexColumns_length, Layout.asciiColumn]
  rcases groups with g | g | g | g <;> rw [g] at count ⊢ <;> omega

include short groups whole some in
/-- The length that is returned after an overflow is the length of the line. -/
theorem total_eq (ascii : Bool) : l.total ascii = (l.line buf ascii).length := by
  have count := ngroups_eq whole
  have fit := columns_fit short groups whole buf
  rw [Layout.line, if_neg some, Layout.total]
  cases ascii with
  | false =>
      have pos : 0 < l.ngroups := by
        by_contra none
        have zero : l.ngroups = 0 := by omega
        rw [zero, Nat.mul_zero] at count
        exact some count.symm
      simp only [Bool.false_eq_true, if_false, hexColumns_length]
      rcases groups with g | g | g | g <;> rw [g] at count ⊢ <;> omega
  | true =>
      simp only [if_true, List.length_append, List.length_replicate, List.length_map, bytes, List.length_range]
      omega

include groups some in
theorem dumpHex_stage {o : Out} (written : Written linebuf n [] o)
    (sized : l.groupsize ≠ 1 → ∀ j < l.ngroups, Sized n (hexColumns buf l.groupsize j).length) :
    Stage linebuf n (hexColumns buf l.groupsize l.ngroups) (dumpHex l buf n o) := by
  have larger {fmt : CString} {value : Nat → VArg 0} {g : Nat} (is : l.groupsize = g) (more : g ≠ 1) (prints : Prints fmt value (groupText buf g)) :
      Stage linebuf n (hexColumns buf g l.ngroups) (dumpGroups n fmt value l.ngroups 0 o) := by
    rw [is] at sized
    have stage := @dumpGroups_stage linebuf n _ _ _ _ prints l.ngroups 0 o written fun i _ before => sized more i (by omega)
    rwa [Nat.zero_add] at stage
  unfold dumpHex
  rcases groups with g | g | g | g
  · have all : l.ngroups = l.len := by rw [Layout.ngroups, g, Nat.div_one]
    rw [g, if_neg (by decide), if_neg (by decide), if_neg (by decide), all]
    exact dumpBytes_stage some written
  · rw [g, if_neg (by decide), if_neg (by decide), if_pos rfl]
    exact larger g (by decide) (prints_u16 buf)
  · rw [g, if_neg (by decide), if_pos rfl]
    exact larger g (by decide) (prints_u32 buf)
  · rw [g, if_pos rfl]
    exact larger g (by decide) (prints_u64 buf)

/-- The column of characters, behind columns that have any text. -/
theorem dumpText_stage {hex : List Char} {o : Out} (written : Written linebuf n hex o) :
    Stage linebuf n (hex ++ List.replicate (l.asciiColumn - hex.length) ' ' ++ (bytes buf l.len).map asciiChar) (dumpText l buf n o) := by
  unfold dumpText
  refine @Stage.bind _ _ (hex ++ List.replicate (l.asciiColumn - hex.length) ' ') _ _ _ ?_ fun o' written' => ?_
  · rw [padColumn_eq, written.pos]
    exact storeAll_stage written
  · rw [dumpAscii_eq]
    exact storeAll_stage written'

end

/-- The end of a call. -/
theorem Stage.dumped {l : Layout} {line : List Char} {ascii : Bool} {stage : Except Jump Out} (done : Stage linebuf n line stage)
    (total : l.total ascii = line.length) :
    Dumped linebuf n line (l.leave ascii stage) := by
  cases stage with
  | ok o =>
      have written : Written linebuf n line o := done
      have room := written.room
      refine ⟨Function.update o.mem o.pos nul, by rw [Layout.leave, written.pos], written.shown ?_⟩
      rw [List.take_of_length_le (by omega)]
  | error jump =>
      cases jump with
      | overflow1 o => exact ⟨o.mem, by rw [Layout.leave, total], done.2⟩
      | overflow2 o => exact ⟨Function.update o.mem o.pos nul, by rw [Layout.leave, total], done.2.shown rfl⟩
      | fault => exact done.elim

/-- A call is right where the buffer or the data are there, and the size that is left for each larger group is not negative as an `int`. -/
def Lines (linebuflen len : Nat) (l : Layout) : Prop :=
  (linebuflen = 0 → len ≠ 0) ∧ (l.groupsize ≠ 1 → ∀ j < l.ngroups, Sized linebuflen ((l.groupsize * 2 + 1) * j - 1))

theorem hexDump_dumped (buf : Nat → Byte) {len : Nat} {rowsize groupsize : BitVec 32} (ascii : Bool) (good : Lines n len (layout len rowsize groupsize)) :
    Dumped linebuf n ((layout len rowsize groupsize).line buf ascii) (hexDumpToBuffer buf len rowsize groupsize linebuf n ascii) := by
  obtain ⟨rows, short, groups, whole, none⟩ := layout_cases len rowsize groupsize
  unfold hexDumpToBuffer
  obtain ⟨there, sized⟩ := good
  generalize layout len rowsize groupsize = l at *
  simp only
  by_cases empty : l.len = 0
  · -- nothing is printed, and the buffer has room for the null
    have pos : n ≠ 0 := fun zero => there zero (none.mp empty)
    have line : l.line buf ascii = [] := if_pos empty
    have stage : dumpLine l linebuf buf n ascii = .ok ⟨0, linebuf⟩ := by
      unfold dumpLine
      rw [if_neg pos, if_pos empty]
    have written := @Written.start linebuf n (Nat.pos_of_ne_zero pos)
    rw [stage, line]
    exact ⟨_, rfl, written.shown List.take_nil.symm⟩
  · have total := total_eq short groups whole empty buf ascii
    refine Stage.dumped ?_ total
    unfold dumpLine
    by_cases zero : n = 0
    · rw [if_pos zero]
      refine ⟨by omega, fun i _ before => by omega, fun pos => by omega, fun i _ => rfl⟩
    · have written := @Written.start linebuf n (Nat.pos_of_ne_zero zero)
      have sized' : l.groupsize ≠ 1 → ∀ j < l.ngroups, Sized n (hexColumns buf l.groupsize j).length := by
        intro larger j less
        rw [hexColumns_length, Nat.mul_comm 2]
        exact sized larger j less
      have hex := dumpHex_stage groups empty buf written sized'
      rw [if_neg zero, if_neg empty, Layout.line, if_neg empty]
      cases ascii with
      | false =>
          have all : hexColumns buf l.groupsize l.ngroups ++ [] = hexColumns buf l.groupsize l.ngroups := List.append_nil _
          simp only [Bool.false_eq_true, if_false]
          rw [← all]
          refine hex.bind fun o written' => ?_
          rw [all]
          exact written'
      | true =>
          simp only [if_true]
          rw [List.append_assoc]
          refine hex.bind fun o written' => ?_
          rw [← List.append_assoc]
          exact dumpText_stage buf written'

end Miracle.Text
